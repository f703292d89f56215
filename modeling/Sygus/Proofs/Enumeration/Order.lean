import Sygus.Proofs.Enumeration.Calls

/-!
# What is enumerated, and in which order

A derivation **ends** with a program or stuck at a category without productions. Without a
bound, successive calls hand out the ends of derivations, one for each, in the order of the
derivations: fewer steps come first, and of as many steps the productions decide. At every time
the derivations whose ends have been handed out are an **initial segment** of those that end,
and each derivation that ends is in such a segment.
-/

namespace Sygus

open Term (Completes Derives follow)

variable {g : Grammar} {s : Symbol}

/-- How the derivation from a symbol ends that makes these choices. -/
inductive Ends (g : Grammar) (s : Symbol) (picks : List Nat) :
    Except Fault (Option Program) → Prop where
  /-- It has come to a program. -/
  | complete {p : Program} : (Term.leaf s).follow g picks = some p.root →
      Ends g s picks (.ok (some p))
  /-- It cannot go on. -/
  | stuck {t : Term} {category : String} : (Term.leaf s).follow g picks = some t →
      t.StuckAt g category → Ends g s picks (.error (.undefinedNonTerminal category))

/-- A derivation ends where its term has an outcome. -/
theorem ends_iff {picks : List Nat} {r : Except Fault (Option Program)} :
    Ends g s picks r ↔ ∃ t, (Term.leaf s).follow g picks = some t ∧ t.outcome? g = some r := by
  refine ⟨?_, ?_⟩
  · intro h
    cases h with
    | @complete p hp => exact ⟨_, hp, Term.outcome?_of_program p⟩
    | @stuck t category ht hstuck =>
        refine ⟨t, ht, ?_⟩
        rw [Term.outcome?_of_not_isComplete hstuck.isComplete_eq, hstuck.expand_eq]
  · rintro ⟨t, ht, houtcome⟩
    cases hcomplete : t.isComplete with
    | true =>
        have hprogram := Term.outcome?_of_program (g := g) ⟨t, hcomplete⟩
        rw [houtcome] at hprogram
        cases hprogram
        exact .complete ht
    | false =>
        rw [Term.outcome?_of_not_isComplete hcomplete] at houtcome
        cases hexp : t.expand g with
        | ok terms =>
            rw [hexp] at houtcome
            cases houtcome
        | error fault =>
            obtain ⟨category, hstuck, rfl⟩ := Term.exists_stuckAt_of_expand hexp
            rw [hexp] at houtcome
            cases houtcome
            exact .stuck ht hstuck

/-- Derivations in order, with all that come before one of them and end. -/
structure InitialSegment (g : Grammar) (s : Symbol) (ds : List (List Nat)) : Prop where
  sorted : ds.Pairwise Earlier
  closed : ∀ d ∈ ds, ∀ d' r, Ends g s d' r → Earlier d' d → d' ∈ ds

/-- The programs among some answers. -/
def programs (answers : List (Except Fault (Option Program))) : List Program :=
  answers.filterMap fun
    | .ok p => p
    | .error _ => none

theorem mem_programs {answers : List (Except Fault (Option Program))} {p : Program} :
    p ∈ programs answers ↔ .ok (some p) ∈ answers := by
  unfold programs
  rw [List.mem_filterMap]
  refine ⟨?_, ?_⟩
  · rintro ⟨r, hr, hp⟩
    cases r with
    | error fault => cases hp
    | ok q =>
        dsimp only at hp
        rwa [hp] at hr
  · intro h
    exact ⟨_, h, rfl⟩

theorem programs_append (answers answers' : List (Except Fault (Option Program))) :
    programs (answers ++ answers') = programs answers ++ programs answers' :=
  List.filterMap_append

theorem programs_replicate_none (k : Nat) : programs (List.replicate k (.ok none)) = [] := by
  induction k with
  | zero => rfl
  | succ k ih => exact ih

/-! ## The derivations that a sweep has seen the end of -/

/-- The choices that lead to places with an outcome. -/
def ended (g : Grammar) (places : List Place) : List (List Nat) :=
  (places.filter fun x => (x.term.outcome? g).isSome).map (·.picks)

theorem mem_ended {places : List Place} {d : List Nat} :
    d ∈ ended g places ↔ ∃ x ∈ places, (x.term.outcome? g).isSome = true ∧ x.picks = d := by
  unfold ended
  simp only [List.mem_map, List.mem_filter, and_assoc]

/-- Each of them has its own outcome. -/
theorem forall₂_ended {places : List Place} (h : ∀ x ∈ places, Place.Of g none s x) :
    List.Forall₂ (Ends g s) (ended g places) (outcomes g places) := by
  induction places with
  | nil => exact .nil
  | cons x places ih =>
      rw [List.forall_mem_cons] at h
      have hrest := ih h.2
      unfold ended outcomes at hrest ⊢
      cases houtcome : x.term.outcome? g with
      | none =>
          rw [List.filter_cons_of_neg (by simp [houtcome])]
          simp only [List.filterMap_cons, houtcome]
          exact hrest
      | some r =>
          rw [List.filter_cons_of_pos (by simp [houtcome])]
          simp only [List.filterMap_cons, houtcome]
          exact .cons (ends_iff.mpr ⟨_, h.1.follow_eq, houtcome⟩) hrest

theorem Sweep.forall₂_ended_after (n : Nat) :
    List.Forall₂ (Ends g s) (ended g (after g none s n).visited)
      (outcomes g (after g none s n).visited) :=
  forall₂_ended fun _ hx => of_mem_visited hx

/-- A derivation that ends is at a place with an outcome. -/
theorem Ends.exists_place {d : List Nat} {r : Except Fault (Option Program)} (h : Ends g s d r) :
    ∃ x, Place.Of g none s x ∧ x.picks = d ∧ (x.term.outcome? g).isSome = true := by
  obtain ⟨t, ht, houtcome⟩ := ends_iff.mp h
  exact ⟨⟨d, t⟩, Place.of_follow ht, rfl, by rw [houtcome]; rfl⟩

/-- **What a sweep has seen the end of is an initial segment.** -/
theorem Sweep.initialSegment_after (n : Nat) :
    InitialSegment g s (ended g (after g none s n).visited) where
  sorted := List.pairwise_map.mpr ((pairwise_visited n).filter _)
  closed := by
    intro d hd d' r hends hearlier
    obtain ⟨x, hx, _, rfl⟩ := mem_ended.mp hd
    obtain ⟨y, hy, rfl, houtcome⟩ := hends.exists_place
    exact mem_ended.mpr ⟨y, (sound_after n).mem_visited_of_earlier hy hx hearlier, houtcome, rfl⟩

/-- The end of every derivation is seen at some time. -/
theorem Sweep.exists_mem_ended {d : List Nat} {r : Except Fault (Option Program)}
    (h : Ends g s d r) : ∃ n, d ∈ ended g (after g none s n).visited := by
  obtain ⟨x, hx, rfl, houtcome⟩ := h.exists_place
  obtain ⟨n, hn⟩ := exists_mem_visited hx
  exact ⟨n, mem_ended.mpr ⟨x, hn, houtcome, rfl⟩⟩

/-- When the queue is empty, the ends of all derivations have been seen. -/
theorem Sweep.mem_ended_of_queue_nil {n : Nat} (hempty : (after g none s n).queue = [])
    {d : List Nat} {r : Except Fault (Option Program)} (h : Ends g s d r) :
    d ∈ ended g (after g none s n).visited := by
  obtain ⟨x, hx, rfl, houtcome⟩ := h.exists_place
  exact mem_ended.mpr ⟨x, mem_visited_of_queue_nil hempty hx, houtcome, rfl⟩

/-! ## The answers of successive calls -/

section Answers

variable {ds : List (List Nat)} {rs : List (Except Fault (Option Program))}

/-- What is handed out is the end of a derivation. -/
theorem exists_ends_of_mem (h : List.Forall₂ (Ends g s) ds rs) {r : Except Fault (Option Program)}
    (hr : r ∈ rs) : ∃ d ∈ ds, Ends g s d r := by
  induction h with
  | nil => cases hr
  | cons hends _ ih =>
      rcases List.mem_cons.mp hr with rfl | hr
      · exact ⟨_, List.mem_cons_self, hends⟩
      · obtain ⟨d, hd, hends'⟩ := ih hr
        exact ⟨d, List.mem_cons_of_mem _ hd, hends'⟩

/-- A derivation ends in one way. -/
theorem Ends.unique {d : List Nat} {r r' : Except Fault (Option Program)} (h : Ends g s d r)
    (h' : Ends g s d r') : r = r' := by
  obtain ⟨t, ht, houtcome⟩ := ends_iff.mp h
  obtain ⟨t', ht', houtcome'⟩ := ends_iff.mp h'
  cases ht.symm.trans ht'
  exact Option.some.inj (houtcome.symm.trans houtcome')

/-- The end of a derivation in an initial segment is handed out. -/
theorem mem_of_mem_ends (h : List.Forall₂ (Ends g s) ds rs) {d : List Nat}
    {r : Except Fault (Option Program)} (hd : d ∈ ds) (hends : Ends g s d r) : r ∈ rs := by
  induction h with
  | nil => cases hd
  | cons hends' _ ih =>
      rcases List.mem_cons.mp hd with rfl | hd
      · rw [hends.unique hends']
        exact List.mem_cons_self
      · exact List.mem_cons_of_mem _ (ih hd)

/-- **A program derives if and only if a derivation ends with it.** -/
theorem derives_iff_exists_ends {p : Program} :
    Derives g s p.root ↔ ∃ d, Ends g s d (.ok (some p)) := by
  refine ⟨?_, ?_⟩
  · rintro ⟨n, hn⟩
    obtain ⟨picks, hpicks⟩ := hn.exists_follow
    exact ⟨picks, .complete hpicks⟩
  · rintro ⟨d, hd⟩
    cases hd with
    | complete hp =>
        exact Term.exists_completes_of_steps (Term.steps_of_follow hp) (Term.isBare_leaf s) p.complete

/-- **In an unambiguous grammar, different derivations do not end with the same program.** -/
theorem nodup_programs (hg : g.Unambiguous) (h : List.Forall₂ (Ends g s) ds rs)
    (hsorted : ds.Pairwise Earlier) : (programs rs).Nodup := by
  induction h with
  | nil => exact List.nodup_nil
  | @cons d r ds rs hends hrest ih =>
      rw [List.pairwise_cons] at hsorted
      cases hends with
      | stuck _ _ => exact ih hsorted.2
      | @complete p hp =>
          refine List.nodup_cons.mpr ⟨?_, ih hsorted.2⟩
          intro hmem
          obtain ⟨d', hd', hends'⟩ := exists_ends_of_mem hrest (mem_programs.mp hmem)
          cases hends' with
          | complete hp' =>
              have heq := Term.follow_injective hg (Term.isBare_leaf s) p.complete hp hp'
              have hearlier := hsorted.1 d' hd'
              rw [← heq] at hearlier
              exact hearlier.asymm hearlier

end Answers

namespace Enumerator

/-- **The answers of calls are the ends of an initial segment,** and then nothing if these are
all. -/
theorem exists_segment_of_calls {answers : List (Except Fault (Option Program))} {e : Enumerator}
    (h : Calls g (ofSymbol s) answers e) : ∃ ds rs k, InitialSegment g s ds
      ∧ List.Forall₂ (Ends g s) ds rs ∧ answers = rs ++ List.replicate k (.ok none)
      ∧ (k ≠ 0 → ∀ d r, Ends g s d r → d ∈ ds) := by
  obtain ⟨n, rs, k, _, hrs, hanswers, hempty⟩ := (at_start s none).of_calls h
  refine ⟨ended g (Sweep.after g none s n).visited, rs, k, Sweep.initialSegment_after n, ?_,
    hanswers, ?_⟩
  · have hforall := Sweep.forall₂_ended_after (g := g) (s := s) n
    have heq : outcomes g (Sweep.after g none s n).visited = rs := hrs
    rwa [heq] at hforall
  · intro hk d r hends
    exact Sweep.mem_ended_of_queue_nil (hempty hk) hends

/-- **The end of every derivation is handed out at some time.** -/
theorem exists_calls_of_ends {d : List Nat} {r : Except Fault (Option Program)}
    (h : Ends g s d r) : ∃ ds rs e, InitialSegment g s ds ∧ d ∈ ds
      ∧ List.Forall₂ (Ends g s) ds rs ∧ Calls g (ofSymbol s) rs e := by
  obtain ⟨n, hn⟩ := Sweep.exists_mem_ended h
  obtain ⟨e, _, hcalls, _⟩ := exists_calls g none s n
  exact ⟨_, _, e, Sweep.initialSegment_after n, hn, Sweep.forall₂_ended_after n, hcalls⟩

/--
**What an enumerator hands out, and in which order.**

The answers of successive calls are the ends of the derivations that end, one for each and in
the order of the derivations: at every time they are those of an initial segment, possibly
followed by nothing at all once all have been handed out, and each derivation that ends is in
such a segment. So the programs handed out are those that derive from the symbol. In a
grammar where no two productions of one category have the same operator and as many arguments,
none is handed out twice.
-/
theorem calls_are_ends_of_derivations (g : Grammar) (s : Symbol) :
    (∀ answers e, Calls g (ofSymbol s) answers e →
        ∃ ds rs k, InitialSegment g s ds ∧ List.Forall₂ (Ends g s) ds rs
          ∧ answers = rs ++ List.replicate k (.ok none)
          ∧ (k ≠ 0 → ∀ d r, Ends g s d r → d ∈ ds))
      ∧ (∀ d r, Ends g s d r →
        ∃ ds rs e, InitialSegment g s ds ∧ d ∈ ds ∧ List.Forall₂ (Ends g s) ds rs
          ∧ Calls g (ofSymbol s) rs e)
      ∧ (∀ p : Program, Derives g s p.root
        ↔ ∃ answers e, Calls g (ofSymbol s) answers e ∧ p ∈ programs answers)
      ∧ (g.Unambiguous → ∀ answers e, Calls g (ofSymbol s) answers e →
        (programs answers).Nodup) := by
  refine ⟨fun _ _ => exists_segment_of_calls, fun _ _ => exists_calls_of_ends, ?_, ?_⟩
  · intro p
    rw [derives_iff_exists_ends]
    refine ⟨?_, ?_⟩
    · rintro ⟨d, hd⟩
      obtain ⟨ds, rs, e, _, hmem, hforall, hcalls⟩ := exists_calls_of_ends hd
      exact ⟨rs, e, hcalls, mem_programs.mpr (mem_of_mem_ends hforall hmem hd)⟩
    · rintro ⟨answers, e, hcalls, hp⟩
      obtain ⟨ds, rs, k, _, hforall, rfl, _⟩ := exists_segment_of_calls hcalls
      rw [programs_append, programs_replicate_none, List.append_nil] at hp
      obtain ⟨d, _, hd⟩ := exists_ends_of_mem hforall (mem_programs.mp hp)
      exact ⟨d, hd⟩
  · intro hg answers e hcalls
    obtain ⟨ds, rs, k, hsegment, hforall, rfl, _⟩ := exists_segment_of_calls hcalls
    rw [programs_append, programs_replicate_none, List.append_nil]
    exact nodup_programs hg hforall hsegment.sorted

/-- The programs of conditional arithmetic come without repetition, and the variable `x` comes. -/
theorem calls_are_ends_of_derivations_arithmetic :
    (∀ answers e, Calls .arithmetic (ofSymbol (.nonTerminal "E")) answers e →
        (programs answers).Nodup)
      ∧ ∃ answers e, Calls .arithmetic (ofSymbol (.nonTerminal "E")) answers e
        ∧ (⟨.atom "x", rfl⟩ : Program) ∈ programs answers := by
  obtain ⟨_, _, hderives, hnodup⟩ := calls_are_ends_of_derivations .arithmetic (.nonTerminal "E")
  exact ⟨hnodup (by decide), (hderives _).mp (Term.derives_op .nil (by decide))⟩

end Enumerator

end Sygus
