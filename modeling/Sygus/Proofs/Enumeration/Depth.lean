import Sygus.Proofs.Arithmetic.Syntax
import Sygus.Proofs.Enumeration.Order
import Sygus.Proofs.Potential

/-!
# What a bound on depth leaves

A bound cuts places out of the tree of derivations, together with all that is below them. Steps
do not make a term less deep, so nothing is lost but places whose terms are too deep: the
places that are left are those of the whole tree that fit. Both sweeps go through their
places in the same order, and without interruptions, so the bounded one visits what the other one
visits, less what does not fit. And the bounded one comes to an end.
-/

namespace Sygus

open Relation (CutExpand ReflTransGen)
open Term (Expands ExpandsFirst)

variable {g : Grammar} {bound : Option Nat} {s : Symbol}

namespace Term

mutual

/-- **A step does not make a term less deep.** -/
theorem Expands.depth_le {t u : Term} (h : Expands g t u) (ht : t.isBare = true) :
    t.depth ≤ u.depth := by
  cases h with
  | hole _ _ _ =>
      rw [isBare, List.isEmpty_iff] at ht
      subst ht
      exact depth_pos _
  | @child s cs cs' hcs =>
      cases s with
      | terminal name =>
          rw [depth, depth]
          exact Nat.add_le_add_left (hcs.maxDepth_le ht) 1
      | nonTerminal name =>
          -- a bare hole has no children
          rw [isBare, List.isEmpty_iff] at ht
          subst ht
          cases hcs

theorem ExpandsFirst.maxDepth_le {cs cs' : List Term} (h : ExpandsFirst g cs cs')
    (hcs : allBare cs = true) : maxDepth cs ≤ maxDepth cs' := by
  cases h with
  | here _ hstep =>
      rw [allBare, Bool.and_eq_true] at hcs
      rw [maxDepth, maxDepth]
      have := hstep.depth_le hcs.1
      omega
  | later _ hrest =>
      rw [allBare, Bool.and_eq_true] at hcs
      rw [maxDepth, maxDepth]
      have := hrest.maxDepth_le hcs.2
      omega

end

end Term

/-! ## The places that are left -/

namespace Place

/-- Whether a bound leaves a place. The root is queued in any case. -/
def isLeft (bound : Option Nat) (x : Place) : Bool := x.picks.isEmpty || x.term.fits bound

/-- **A bound leaves the places that fit.** -/
theorem of_iff {x : Place} : Of g bound s x ↔ Of g none s x ∧ x.isLeft bound = true := by
  refine ⟨?_, ?_⟩
  · intro h
    induction h with
    | root => exact ⟨.root, rfl⟩
    | next _ hy ih =>
        obtain ⟨i, u, hu, hfits, rfl⟩ := mem_next.mp hy
        exact ⟨.next ih.1 (mem_next.mpr ⟨i, u, hu, rfl, rfl⟩), by simp [isLeft, hfits]⟩
  · rintro ⟨h, hleft⟩
    induction h with
    | root => exact .root
    | @next x y hx hy ih =>
        obtain ⟨i, u, hu, _, rfl⟩ := mem_next.mp hy
        have hfits : u.fits bound = true := by simpa [isLeft] using hleft
        -- the term above is no deeper
        have hstep := Term.mem_choices_iff.mp (List.mem_of_getElem? hu)
        have hfits' := Term.fits_of_depth_le (hstep.depth_le hx.met.isBare) hfits
        exact .next (ih (by simp [isLeft, hfits'])) (mem_next.mpr ⟨i, u, hu, hfits, rfl⟩)

end Place

/-- A list in order that leaves out nothing of another list in order but its end is a part of
it from the start. -/
theorem isPrefix_of_pairwise {α : Type} {r : α → α → Prop} (hr : ∀ a b, r a b → ¬ r b a)
    {as bs : List α} (has : as.Pairwise r) (hbs : bs.Pairwise r) (hsub : ∀ a ∈ as, a ∈ bs)
    (hclosed : ∀ a ∈ as, ∀ b ∈ bs, r b a → b ∈ as) : as <+: bs := by
  induction as generalizing bs with
  | nil => exact List.nil_prefix
  | cons a as ih =>
      rw [List.pairwise_cons] at has
      cases bs with
      | nil => exact absurd (hsub a List.mem_cons_self) List.not_mem_nil
      | cons b bs =>
          rw [List.pairwise_cons] at hbs
          have hirrefl : ∀ x, ¬ r x x := fun x h => hr x x h h
          -- both lists begin with their least element
          obtain rfl : a = b := by
            rcases List.mem_cons.mp (hsub a List.mem_cons_self) with heq | hmem
            · exact heq
            · have hlt := hbs.1 a hmem
              rcases List.mem_cons.mp (hclosed a List.mem_cons_self b List.mem_cons_self hlt) with
                heq | hmem'
              · exact heq.symm
              · exact absurd (has.1 b hmem') (hr b a hlt)
          refine List.prefix_cons_inj a |>.mpr (ih has.2 hbs.2 ?_ ?_)
          · intro x hx
            rcases List.mem_cons.mp (hsub x (List.mem_cons_of_mem _ hx)) with rfl | hmem
            · exact absurd (has.1 x hx) (hirrefl x)
            · exact hmem
          · intro x hx y hy hlt
            rcases List.mem_cons.mp (hclosed x (List.mem_cons_of_mem _ hx) y
              (List.mem_cons_of_mem _ hy) hlt) with rfl | hmem
            · exact absurd (hbs.1 y hy) (hirrefl y)
            · exact hmem

namespace Sweep

/-! ## A bounded sweep ends -/

/-- The terms of the queue as heads of a hydra. -/
def heads (w : Sweep) : Multiset Term := (w.queue.map (·.term) : List Term)

/-- **A bounded visit cuts one head off and grows only smaller ones.** -/
theorem cutExpand_step {d : Nat} {w : Sweep} (h : w.queue ≠ []) :
    CutExpand (Term.Lower g d) (w.step g (some d)).heads w.heads := by
  obtain ⟨visited, queue⟩ := w
  cases queue with
  | nil => exact absurd rfl h
  | cons x rest =>
      show CutExpand _ (((rest ++ x.next g (some d)).map (·.term) : List Term) : Multiset Term)
        ((x.term :: rest.map (·.term) : List Term) : Multiset Term)
      rw [List.map_append, x.map_term_next]
      refine Term.cutExpand_append ?_
      intro u hu
      obtain ⟨hmem, hfits⟩ := List.mem_filter.mp hu
      exact (Term.mem_choices_iff.mp hmem).lower hfits

/-- **A bounded sweep comes to an end.** -/
theorem exists_queue_nil (g : Grammar) (d : Nat) (s : Symbol) :
    ∃ n, (after g (some d) s n).queue = [] := by
  have hwf := (Term.wellFounded_lower (g := g) d).cutExpand
  have hall : ∀ m n, (after g (some d) s n).heads = m → ∃ n, (after g (some d) s n).queue = [] := by
    intro m
    induction m using hwf.induction with
    | _ m ih =>
        rintro n rfl
        by_cases hempty : (after g (some d) s n).queue = []
        · exact ⟨n, hempty⟩
        · have hlt := cutExpand_step (g := g) (d := d) hempty
          rw [← after_succ] at hlt
          exact ih _ hlt (n + 1) rfl
  exact hall _ 0 rfl

/-! ## The bounded sweep and the other one -/

/-- **What the whole sweep has visited and a bound leaves, the bounded sweep visits first.** -/
theorem filter_isLeft_isPrefix {m n : Nat} (hempty : (after g bound s n).queue = []) :
    (after g none s m).visited.filter (·.isLeft bound) <+: (after g bound s n).visited := by
  refine isPrefix_of_pairwise (fun _ _ => Earlier.asymm) ((pairwise_visited m).filter _)
    (pairwise_visited n) ?_ ?_
  · intro x hx
    obtain ⟨hx, hleft⟩ := List.mem_filter.mp hx
    exact mem_visited_of_queue_nil hempty (Place.of_iff.mpr ⟨of_mem_visited hx, hleft⟩)
  · intro x hx y hy hearlier
    obtain ⟨hy, hleft⟩ := Place.of_iff.mp (of_mem_visited hy)
    have hx := (List.mem_filter.mp hx).1
    exact List.mem_filter.mpr ⟨(sound_after m).mem_visited_of_earlier hy hx hearlier, hleft⟩

/-- All of finitely many places are visited at some time. -/
theorem exists_forall_mem_visited {places : List Place} (h : ∀ x ∈ places, Place.Of g bound s x) :
    ∃ n, ∀ x ∈ places, x ∈ (after g bound s n).visited := by
  induction places with
  | nil => exact ⟨0, by simp⟩
  | cons x places ih =>
      rw [List.forall_mem_cons] at h
      obtain ⟨m, hm⟩ := exists_mem_visited h.1
      obtain ⟨n, hn⟩ := ih h.2
      refine ⟨max m n, ?_⟩
      rw [List.forall_mem_cons]
      exact ⟨(visited_prefix_after (Nat.le_max_left m n)).subset hm,
        fun y hy => (visited_prefix_after (Nat.le_max_right m n)).subset (hn y hy)⟩

/-- **At some time the whole sweep has visited all that a bound leaves.** -/
theorem exists_filter_isLeft_eq {n : Nat} (hempty : (after g bound s n).queue = []) :
    ∃ m, (after g none s m).visited.filter (·.isLeft bound) = (after g bound s n).visited := by
  have hplaces : ∀ x ∈ (after g bound s n).visited, Place.Of g none s x :=
    fun x hx => (Place.of_iff.mp (of_mem_visited hx)).1
  obtain ⟨m, hm⟩ := exists_forall_mem_visited hplaces
  refine ⟨m, (filter_isLeft_isPrefix hempty).eq_of_length_le ?_⟩
  refine List.Subperm.length_le (List.subperm_of_subset ?_ ?_)
  · exact (pairwise_visited n).imp fun hearlier heq => (heq ▸ hearlier).asymm (heq ▸ hearlier)
  · intro x hx
    exact List.mem_filter.mpr ⟨hm x hx, (Place.of_iff.mp (of_mem_visited hx)).2⟩

end Sweep

/-! ## Programs of places -/

/-- The programs among the outcomes of places are those that are complete. -/
theorem programs_outcomes (places : List Place) :
    programs (outcomes g places) = places.filterMap fun x => Program.ofTerm? x.term := by
  unfold programs outcomes
  rw [List.filterMap_filterMap]
  refine List.filterMap_congr fun x _ => ?_
  unfold Term.outcome?
  cases Program.ofTerm? x.term with
  | some p => rfl
  | none => cases x.term.expand g <;> rfl

/-- The root of a category is no complete term. -/
theorem Place.Of.isLeft_eq {category : String} {x : Place}
    (h : Of g none (.nonTerminal category) x) (hcomplete : x.term.isComplete = true) :
    x.isLeft bound = x.term.fits bound := by
  cases h with
  | root => simp [Place.root, Term.leaf, Term.isComplete, Symbol.isTerminal] at hcomplete
  | next _ hy =>
      obtain ⟨i, u, _, _, rfl⟩ := mem_next.mp hy
      simp [isLeft]

/-- Of the programs of places, a bound leaves those that fit. -/
theorem programs_filter_isLeft {category : String} {d : Nat} {places : List Place}
    (h : ∀ x ∈ places, Place.Of g none (.nonTerminal category) x) :
    programs (outcomes g (places.filter (·.isLeft (some d))))
      = (programs (outcomes g places)).filter fun p => p.root.depth ≤ d := by
  rw [programs_outcomes, programs_outcomes, List.filterMap_filter, List.filter_filterMap]
  refine List.filterMap_congr fun x hx => ?_
  unfold Program.ofTerm?
  by_cases hcomplete : x.term.isComplete = true
  · rw [dif_pos hcomplete, (h x hx).isLeft_eq hcomplete]
    rfl
  · rw [dif_neg hcomplete]
    exact ite_self none

/-- Where no place is stuck, all outcomes are programs. -/
theorem outcomes_eq_map_programs {places : List Place}
    (h : ∀ x ∈ places, x.term.HolesIn g.Defines) :
    outcomes g places = (programs (outcomes g places)).map fun p => .ok (some p) := by
  rw [programs_outcomes, List.map_filterMap]
  refine List.filterMap_congr fun x hx => ?_
  obtain ⟨results, hresults⟩ := x.term.exists_expand (h x hx)
  unfold Term.outcome?
  cases Program.ofTerm? x.term with
  | some p => rfl
  | none =>
      dsimp only
      rw [hresults]
      rfl

/-! ## Bounded enumeration -/

/-- The categories that occur in derivations from a category. -/
inductive Grammar.Reaches (g : Grammar) (category : String) : String → Prop where
  | refl : Reaches g category category
  | step {p : Production} {argument : String} : Reaches g category p.target →
      p ∈ g.productions → .nonTerminal argument ∈ p.args → Reaches g category argument

theorem Grammar.keepsTo_reaches (g : Grammar) (category : String) :
    g.KeepsTo (g.Reaches category) := fun _ hp htarget _ hargument => .step htarget hp hargument

/-- In a closed grammar, a defined category reaches only defined ones. -/
theorem Grammar.Closed.defines_of_reaches {category c : String} (hg : g.Closed)
    (hdefined : g.Defines category) (h : g.Reaches category c) : g.Defines c := by
  induction h with
  | refl => exact hdefined
  | step _ hp hargument _ => exact hg _ hp _ hargument

/-- If every category that is reached is defined, no place is stuck. -/
theorem Place.Of.holesIn_defines {category : String}
    (hdefined : ∀ c, g.Reaches category c → g.Defines c) {x : Place}
    (h : Of g bound (.nonTerminal category) x) : x.term.HolesIn g.Defines := by
  intro c hc
  exact hdefined c (h.met.holesIn (g.keepsTo_reaches category) .refl c hc)

namespace Enumerator

/-- **Once a sweep is over, calls hand out nothing any more.** -/
theorem exists_calls_replicate {n : Nat} (hempty : (Sweep.after g bound s n).queue = []) (k : Nat) :
    ∃ e, Calls g ((ofSymbol s).withBound bound)
      (outcomes g (Sweep.after g bound s n).visited ++ List.replicate k (.ok none)) e := by
  obtain ⟨e, e', hcalls, hturns, hat⟩ := exists_calls g bound s n
  have hdry : Ending g .never e' (.ok none) e' := by
    refine .dry ?_
    rw [hat.frontier, hempty]
    rfl
  cases k with
  | zero => exact ⟨e, by simpa using hcalls⟩
  | succ k =>
      refine ⟨e', ?_⟩
      induction k with
      | zero => exact hcalls.concat hturns hdry
      | succ k ih =>
          rw [List.replicate_succ', ← List.append_assoc]
          exact ih.concat .refl hdry

/-- **The answers of calls are the outcomes of the whole sweep,** and then nothing. -/
theorem Calls.prefix_of_queue_nil {n : Nat} (hempty : (Sweep.after g bound s n).queue = [])
    {answers : List (Except Fault (Option Program))} {e : Enumerator}
    (h : Calls g ((ofSymbol s).withBound bound) answers e) :
    ∃ k, answers <+: outcomes g (Sweep.after g bound s n).visited
      ++ List.replicate k (.ok none) := by
  obtain ⟨m, rs, k, _, hrs, rfl, hover⟩ := (at_start s bound).of_calls h
  obtain rfl : outcomes g (Sweep.after g bound s m).visited = rs := hrs
  refine ⟨k, ?_⟩
  have hprefix := (Sweep.visited_prefix_of_queue_nil hempty m).filterMap (·.term.outcome? g)
  by_cases hk : k = 0
  · subst hk
    rw [List.replicate_zero, List.append_nil, List.append_nil]
    exact hprefix
  · -- a call that hands out nothing has found the queue empty
    have hsuffix := Sweep.visited_prefix_of_queue_nil (hover hk) n
    have hsame : (Sweep.after g bound s m).visited = (Sweep.after g bound s n).visited :=
      (Sweep.visited_prefix_of_queue_nil hempty m).eq_of_length_le hsuffix.length_le
    rw [hsame]

/--
**A bound on depth filters, and does nothing else.**

If every category that derivations reach is defined, there is a list of programs such that

* calls of the bounded enumerator hand out this list and then nothing, for as long as they go
  on, and
* the programs of the unbounded enumerator that fit the bound are at every time a part of this
  list from its start, and at some time all of it.
-/
theorem exists_bounded_programs {category : String}
    (hdefined : ∀ c, g.Reaches category c → g.Defines c) (d : Nat) :
    ∃ ps : List Program,
      (∀ k, ∃ e, Calls g ((ofSymbol (.nonTerminal category)).withBound (some d))
        (ps.map (fun p => .ok (some p)) ++ List.replicate k (.ok none)) e)
      ∧ (∀ answers e, Calls g ((ofSymbol (.nonTerminal category)).withBound (some d)) answers e →
        ∃ k, answers <+: ps.map (fun p => .ok (some p)) ++ List.replicate k (.ok none))
      ∧ (∀ answers e, Calls g (ofSymbol (.nonTerminal category)) answers e →
        (programs answers).filter (fun p => p.root.depth ≤ d) <+: ps)
      ∧ ∃ answers e, Calls g (ofSymbol (.nonTerminal category)) answers e
        ∧ (programs answers).filter (fun p => p.root.depth ≤ d) = ps := by
  obtain ⟨n, hempty⟩ := Sweep.exists_queue_nil g d (.nonTerminal category)
  have hholes : ∀ x ∈ (Sweep.after g (some d) (.nonTerminal category) n).visited,
      x.term.HolesIn g.Defines :=
    fun x hx => (Sweep.of_mem_visited hx).holesIn_defines hdefined
  have houtcomes := outcomes_eq_map_programs hholes
  refine ⟨programs (outcomes g (Sweep.after g (some d) (.nonTerminal category) n).visited),
    ?_, ?_, ?_, ?_⟩
  · intro k
    rw [← houtcomes]
    exact exists_calls_replicate hempty k
  · intro answers e hcalls
    rw [← houtcomes]
    exact hcalls.prefix_of_queue_nil hempty
  · intro answers e hcalls
    obtain ⟨m, rs, k, _, hrs, rfl, _⟩ := (at_start _ none).of_calls hcalls
    have hrs' : rs = outcomes g (Sweep.after g none (.nonTerminal category) m).visited := hrs.symm
    rw [programs_append, programs_replicate_none, List.append_nil, hrs',
      ← programs_filter_isLeft fun x hx => Sweep.of_mem_visited hx, programs_outcomes,
      programs_outcomes]
    exact (Sweep.filter_isLeft_isPrefix hempty).filterMap _
  · obtain ⟨m, hm⟩ := Sweep.exists_filter_isLeft_eq hempty
    obtain ⟨e, _, hcalls, _⟩ := exists_calls g none (.nonTerminal category) m
    refine ⟨_, e, hcalls, ?_⟩
    rw [← programs_filter_isLeft fun x hx => Sweep.of_mem_visited hx, hm]

/-- Under the bound two, the expressions of conditional arithmetic are enumerated to the last. -/
theorem exists_bounded_programs_arithmetic :
    (∀ c, Grammar.arithmetic.Reaches "E" c → Grammar.arithmetic.Defines c)
      ∧ ∃ ps : List Program,
        (∀ k, ∃ e, Calls .arithmetic ((ofSymbol (.nonTerminal "E")).withBound (some 2))
          (ps.map (fun p => .ok (some p)) ++ List.replicate k (.ok none)) e)
        ∧ ∃ answers e, Calls .arithmetic (ofSymbol (.nonTerminal "E")) answers e
          ∧ (programs answers).filter (fun p => p.root.depth ≤ 2) = ps := by
  have hdefined : ∀ c, Grammar.arithmetic.Reaches "E" c → Grammar.arithmetic.Defines c :=
    fun _ => Arithmetic.closed.defines_of_reaches Arithmetic.defines_expr
  obtain ⟨ps, hbounded, _, _, hunbounded⟩ := exists_bounded_programs hdefined 2
  exact ⟨hdefined, ps, hbounded, hunbounded⟩

end Enumerator

end Sygus
