import Sygus.Proofs.Enumeration.Depth
import Sygus.Proofs.Search.Agreement

/-!
# What a search that prunes goes through

The derivations from the start symbol form a tree, and a search that prunes nothing sweeps it. A
search that prunes leaves out the places **below** terms that it prunes. The other places
**survive**, and the search takes their terms out of the frontier in the order of the sweep.

The proof lets the two move side by side. Where the sweep visits a place that does not survive, the
search stands still, and nothing below that place survives either. Where the sweep visits a
survivor, the search takes its term out of the frontier, so that the frontier always holds the terms
of the survivors in the queue of the sweep. All of this holds for every `Manner`, and so for
constraint-based search with any solver, which prunes the partial terms that the solver finds
infeasible.
-/

namespace Sygus

open Term (Derives)

variable {g : Grammar} {bound : Option Nat} {m : Manner}

/-! ## Survivors -/

/-- Whether a search prunes a term: it is partial and not worth expanding. -/
def Manner.prunes (m : Manner) (t : Term) : Bool :=
  !t.isComplete && match m.worthwhile t with
    | .ok false => true
    | _ => false

theorem Manner.prunes_iff {t : Term} :
    m.prunes t = true ↔ t.isComplete = false ∧ m.worthwhile t = .ok false := by
  rw [prunes, Bool.and_eq_true, Bool.not_eq_true']
  rcases m.worthwhile t with fault | (_ | _) <;> simp

/-- What is remarked when a term is popped: candidates are not judged. -/
def Manner.remarked (m : Manner) (t : Term) : List Event :=
  if t.isComplete then [] else m.remarks t

/-- Whether none of the terms is pruned at which the choices are made. -/
def Manner.clears (m : Manner) (g : Grammar) (t : Term) : List Nat → Bool
  | [] => true
  | i :: picks => !m.prunes t && ((t.choices g)[i]?.all (m.clears g · picks))

/-- The last choice is made at the term that the others lead to. -/
theorem Manner.clears_concat {t u : Term} {picks : List Nat} (i : Nat)
    (h : t.follow g picks = some u) :
    m.clears g t (picks ++ [i]) = (m.clears g t picks && !m.prunes u) := by
  -- on the choices before the last one: each of them checks the term at which it is made
  induction picks generalizing t with
  | nil =>
      cases h
      rw [List.nil_append, clears, clears, Bool.true_and]
      cases (u.choices g)[i]? <;> exact Bool.and_true _
  | cons j picks ih =>
      obtain ⟨v, hv, hrest⟩ := Option.bind_eq_some_iff.mp h
      rw [List.cons_append, clears, clears, hv, Option.all_some, Option.all_some, ih hrest,
        Bool.and_assoc]

namespace Place

/-- Whether a search gets to a place: it prunes no term above. -/
def survives (m : Manner) (g : Grammar) (x : Place) : Bool :=
  m.clears g (.leaf g.startSymbol) x.picks

/-- The first place is above the second one, which makes at least one choice more. -/
def Above (x y : Place) : Prop := ∃ i picks, y.picks = x.picks ++ i :: picks

/-- The place below survives if the one above does and is not pruned. -/
theorem Of.survives_next {x y : Place} (hx : Of g bound g.startSymbol x) (hy : y ∈ x.next g bound) :
    y.survives m g = (x.survives m g && !m.prunes x.term) := by
  obtain ⟨i, u, _, _, rfl⟩ := mem_next.mp hy
  exact Manner.clears_concat i hx.follow_eq

/-- Either all places below survive or none of them does. -/
theorem Of.filter_next {x : Place} (hx : Of g bound g.startSymbol x) :
    (x.next g bound).filter (·.survives m g)
      = if x.survives m g && !m.prunes x.term then x.next g bound else [] := by
  cases hbelow : (x.survives m g && !m.prunes x.term) with
  | true =>
      refine List.filter_eq_self.mpr ?_
      intro y hy
      rw [hx.survives_next hy, hbelow]
  | false =>
      refine List.filter_eq_nil_iff.mpr ?_
      intro y hy
      simp [hx.survives_next hy, hbelow]

/-- **What does not survive is below a term that is pruned.** -/
theorem Of.survives_eq_false_iff {y : Place} (hy : Of g bound g.startSymbol y) :
    y.survives m g = false
      ↔ ∃ x, Of g bound g.startSymbol x ∧ x.Above y ∧ m.prunes x.term = true := by
  induction hy with
  | root =>
      refine ⟨?_, ?_⟩
      · intro h
        cases h
      · rintro ⟨x, _, ⟨i, picks, hpicks⟩, _⟩
        exact absurd hpicks.symm (List.append_ne_nil_of_right_ne_nil _ (List.cons_ne_nil _ _))
  | @next x y hx hy ih =>
      rw [hx.survives_next hy, Bool.and_eq_false_iff, Bool.not_eq_false', ih]
      obtain ⟨i, u, _, _, rfl⟩ := mem_next.mp hy
      refine ⟨?_, ?_⟩
      · rintro (⟨z, hz, ⟨j, picks, hpicks⟩, hpruned⟩ | hpruned)
        · exact ⟨z, hz, ⟨j, picks ++ [i], by simp [hpicks]⟩, hpruned⟩
        · exact ⟨x, hx, ⟨i, [], rfl⟩, hpruned⟩
      · rintro ⟨z, hz, ⟨j, picks, hpicks⟩, hpruned⟩
        -- `z` is the place `x` itself, or above it
        dsimp only at hpicks
        rcases List.eq_nil_or_concat picks with rfl | ⟨picks, k, rfl⟩
        · obtain ⟨hsame, _⟩ := List.append_inj' hpicks rfl
          rw [hx.eq_of_picks hz hsame]
          exact Or.inr hpruned
        · have hlonger : x.picks ++ [i] = (z.picks ++ j :: picks) ++ [k] := by simpa using hpicks
          obtain ⟨hsame, _⟩ := List.append_inj' hlonger rfl
          exact Or.inl ⟨z, hz, ⟨j, picks, hsame⟩, hpruned⟩

end Place

/-- The terms of the places that survive. -/
def survivors (m : Manner) (g : Grammar) (places : List Place) : List Term :=
  (places.filter (·.survives m g)).map (·.term)

theorem survivors_append (xs ys : List Place) :
    survivors m g (xs ++ ys) = survivors m g xs ++ survivors m g ys := by
  simp [survivors]

theorem survivors_cons_of_survives {x : Place} (h : x.survives m g = true) (xs : List Place) :
    survivors m g (x :: xs) = x.term :: survivors m g xs := by
  simp [survivors, h]

theorem survivors_cons_of_not_survives {x : Place} (h : x.survives m g = false)
    (xs : List Place) : survivors m g (x :: xs) = survivors m g xs := by
  simp [survivors, h]

theorem term_mem_survivors {x : Place} {xs : List Place} (hx : x ∈ xs)
    (h : x.survives m g = true) : x.term ∈ survivors m g xs :=
  List.mem_map.mpr ⟨x, List.mem_filter.mpr ⟨hx, h⟩, rfl⟩

theorem survivors_prefix {xs ys : List Place} (h : xs <+: ys) :
    survivors m g xs <+: survivors m g ys :=
  (h.filter _).map _

/-! ## Survivors in the sweep -/

/-- The sweep of the derivations from the start symbol, after so many visits. -/
def Grammar.sweep (g : Grammar) (bound : Option Nat) (n : Nat) : Sweep :=
  .after g bound g.startSymbol n

theorem Grammar.sweep_succ (n : Nat) : g.sweep bound (n + 1) = (g.sweep bound n).step g bound :=
  Sweep.after_succ n

theorem Grammar.sound_sweep (n : Nat) : (g.sweep bound n).Sound g bound g.startSymbol :=
  Sweep.sound_after n

theorem Grammar.of_queue {n : Nat} {x : Place} {rest : List Place}
    (h : (g.sweep bound n).queue = x :: rest) : Place.Of g bound g.startSymbol x := by
  refine (sound_sweep n).places x (List.mem_append_right _ ?_)
  rw [h]
  exact List.mem_cons_self

namespace Sweep

variable {w : Sweep} {x : Place} {rest : List Place}

/-- A visit to a place that does not survive makes no difference to the survivors. -/
theorem survivors_step_of_not_survives (hqueue : w.queue = x :: rest)
    (hx : Place.Of g bound g.startSymbol x) (h : x.survives m g = false) :
    survivors m g (w.step g bound).visited = survivors m g w.visited
      ∧ survivors m g (w.step g bound).queue = survivors m g w.queue := by
  obtain ⟨visited, queue⟩ := w
  subst hqueue
  have hbelow : survivors m g (x.next g bound) = [] := by
    rw [survivors, hx.filter_next, h]
    rfl
  refine ⟨?_, ?_⟩
  · show survivors m g (visited ++ [x]) = survivors m g visited
    rw [survivors_append, survivors_cons_of_not_survives h]
    exact List.append_nil _
  · show survivors m g (rest ++ x.next g bound) = survivors m g (x :: rest)
    rw [survivors_append, survivors_cons_of_not_survives h, hbelow, List.append_nil]

/-- A visit to a survivor. -/
theorem survivors_step_of_survives (hqueue : w.queue = x :: rest)
    (h : x.survives m g = true) :
    survivors m g (w.step g bound).visited = survivors m g w.visited ++ [x.term]
      ∧ survivors m g (w.step g bound).queue
        = survivors m g rest ++ survivors m g (x.next g bound) := by
  obtain ⟨visited, queue⟩ := w
  subst hqueue
  refine ⟨?_, ?_⟩
  · show survivors m g (visited ++ [x]) = _
    rw [survivors_append, survivors_cons_of_survives h]
    rfl
  · exact survivors_append rest (x.next g bound)

/-- Places in the queue that do not survive are visited, and make no difference. -/
theorem exists_next_in_queue {before : List Place} {n : Nat}
    (hqueue : (g.sweep bound n).queue = before ++ x :: rest)
    (hbefore : ∀ y ∈ before, y.survives m g = false) :
    ∃ k rest', (g.sweep bound k).queue = x :: rest'
      ∧ survivors m g (g.sweep bound k).visited = survivors m g (g.sweep bound n).visited
      ∧ survivors m g rest' = survivors m g rest := by
  induction before generalizing n rest with
  | nil => exact ⟨n, rest, hqueue, rfl, rfl⟩
  | cons y before ih =>
      rw [List.forall_mem_cons] at hbefore
      have hy : Place.Of g bound g.startSymbol y := Grammar.of_queue hqueue
      obtain ⟨hvisited, hqueued⟩ := survivors_step_of_not_survives hqueue hy hbefore.1
      have hstep : (g.sweep bound (n + 1)).queue = before ++ x :: (rest ++ y.next g bound) := by
        rw [Grammar.sweep_succ, step, hqueue]
        simp
      obtain ⟨k, rest', hk, hvisited', hrest'⟩ := ih hstep hbefore.2
      rw [Grammar.sweep_succ, hvisited] at hvisited'
      refine ⟨k, rest', hk, hvisited', ?_⟩
      -- nothing below `y` survives
      have hbelow : survivors m g (y.next g bound) = [] := by
        rw [survivors, hy.filter_next, hbefore.1]
        rfl
      rw [hrest', survivors_append, hbelow, List.append_nil]

/-- **If there is a survivor in the queue, the sweep comes to it,** and to none before. -/
theorem exists_survivor_next {n : Nat} {t : Term} {ts : List Term}
    (h : survivors m g (g.sweep bound n).queue = t :: ts) :
    ∃ k x rest, (g.sweep bound k).queue = x :: rest ∧ x.term = t ∧ x.survives m g = true
      ∧ survivors m g (g.sweep bound k).visited = survivors m g (g.sweep bound n).visited
      ∧ survivors m g rest = ts := by
  obtain ⟨x, xs, hfilter, hterm, hts⟩ := List.map_eq_cons_iff.mp h
  obtain ⟨before, rest, hqueue, hbefore, hx, rfl⟩ := List.filter_eq_cons_iff.mp hfilter
  obtain ⟨k, rest', hk, hvisited, hrest⟩ := exists_next_in_queue (m := m) hqueue
    (fun y hy => by simpa using hbefore y hy)
  exact ⟨k, x, rest', hk, hterm, hx, hvisited, hrest.trans hts⟩

/-- Once no survivor is left in the queue, there will be none. -/
theorem survivors_of_queue {n : Nat} (h : survivors m g (g.sweep bound n).queue = []) (k : Nat) :
    survivors m g (g.sweep bound (n + k)).visited = survivors m g (g.sweep bound n).visited
      ∧ survivors m g (g.sweep bound (n + k)).queue = [] := by
  induction k with
  | zero => exact ⟨rfl, h⟩
  | succ k ih =>
      obtain ⟨hvisited, hnone⟩ := ih
      rw [← Nat.add_assoc, Grammar.sweep_succ]
      cases hqueue : (g.sweep bound (n + k)).queue with
      | nil =>
          rw [step_eq_self hqueue]
          exact ⟨hvisited, hnone⟩
      | cons x rest =>
          have hx := Grammar.of_queue hqueue
          cases hsurvives : x.survives m g with
          | true =>
              rw [hqueue, survivors_cons_of_survives hsurvives] at hnone
              cases hnone
          | false =>
              obtain ⟨hvisited', hqueued⟩ := survivors_step_of_not_survives hqueue hx hsurvives
              exact ⟨hvisited'.trans hvisited, hqueued.trans hnone⟩

/-- **When no survivor is left in the queue, all of them have been visited.** -/
theorem survivors_prefix_of_queue {n : Nat} (h : survivors m g (g.sweep bound n).queue = [])
    (k : Nat) :
    survivors m g (g.sweep bound k).visited <+: survivors m g (g.sweep bound n).visited := by
  rcases Nat.le_total k n with hle | hle
  · exact survivors_prefix (visited_prefix_after hle)
  · obtain ⟨j, rfl⟩ := Nat.exists_eq_add_of_le hle
    rw [(survivors_of_queue h j).1]

end Sweep

namespace BreadthFirst

open Place (Of)

variable {problem : Problem} {st st' : State} {ts : List Term}

/-- **A search has popped** these terms, one in each turn, and is in this state. -/
inductive Popped (m : Manner) (problem : Problem) (bound : Option Nat) :
    List Term → State → Prop where
  | start : Popped m problem bound [] (.initial problem.grammar)
  | turn {ts : List Term} {t : Term} {rest : Frontier} {st st' : State} :
      Popped m problem bound ts st → st.frontier.pop? = some (t, rest) →
      Turn m problem bound .never st st' → Popped m problem bound (ts ++ [t]) st'

/-- Every turn pops a term. -/
theorem Turn.exists_pop? {stop : Stop} (h : Turn m problem bound stop st st') :
    ∃ t rest, st.frontier.pop? = some (t, rest) := by
  cases h with
  | refuted hp _ _ => exact ⟨_, _, hp⟩
  | pruned hp _ _ _ => exact ⟨_, _, hp⟩
  | expanded hp _ _ _ _ => exact ⟨_, _, hp⟩

/-- A search that ends has popped some terms, and comes to an ending then. -/
theorem exists_popped_of_search {fuel : Nat} {r : Run}
    (h : run m problem bound .never fuel = some r) :
    ∃ ts st, Popped m problem bound ts st ∧ Ending m problem .never st r := by
  have hstep : ∀ {st st' : State}, (∃ ts, Popped m problem bound ts st) →
      Turn m problem bound .never st st' → ∃ ts, Popped m problem bound ts st' := by
    rintro st st' ⟨ts, hts⟩ hturn
    obtain ⟨t, rest, hp⟩ := hturn.exists_pop?
    exact ⟨_, .turn hts hp hturn⟩
  obtain ⟨st, ⟨ts, hts⟩, hend⟩ := exists_ending_of_search hstep h ⟨[], .start⟩
  exact ⟨ts, st, hts, hend⟩

/-- What a turn does, by the term that it pops. -/
theorem Turn.cases_of_pop? {stop : Stop} {t : Term} {rest : Frontier}
    (h : Turn m problem bound stop st st') (hp : st.frontier.pop? = some (t, rest)) :
    (∃ p : Program, p.root = t ∧ p.isValid problem.examples = .ok false
      ∧ st' = ⟨rest, { st.tally with tried := st.tally.tried + 1 }, st.journal.polled⟩)
    ∨ (t.isComplete = false ∧ m.worthwhile t = .ok false
      ∧ st' = ⟨rest, { st.tally with pruned := st.tally.pruned + 1 },
          st.journal.polled.reportAll (m.remarks t)⟩)
    ∨ ∃ terms, t.isComplete = false ∧ m.worthwhile t = .ok true
      ∧ t.expand problem.grammar = .ok terms
      ∧ st' = ⟨rest.append (terms.filter (·.fits bound)), st.tally,
          st.journal.polled.reportAll (m.remarks t)⟩ := by
  have hpop : ∀ {t' rest'}, st.frontier.pop? = some (t', rest') → t' = t ∧ rest' = rest :=
    fun hp' => Prod.mk.inj (Option.some.inj (hp'.symm.trans hp))
  cases h with
  | @refuted p _ hp' _ hinvalid =>
      obtain ⟨rfl, rfl⟩ := hpop hp'
      exact Or.inl ⟨p, rfl, hinvalid, rfl⟩
  | pruned hp' _ hpartial hworth =>
      obtain ⟨rfl, rfl⟩ := hpop hp'
      exact Or.inr (Or.inl ⟨hpartial, hworth, rfl⟩)
  | expanded hp' _ hpartial hworth hexp =>
      obtain ⟨rfl, rfl⟩ := hpop hp'
      exact Or.inr (Or.inr ⟨_, hpartial, hworth, hexp, rfl⟩)

/-- **The tally counts what has been popped and pruned.** -/
theorem Popped.pruned_eq (h : Popped m problem bound ts st) :
    st.tally.pruned = ts.countP m.prunes := by
  induction h with
  | start => rfl
  | @turn ts t rest st st' _ hp hturn ih =>
      rw [List.countP_append, ← ih]
      rcases hturn.cases_of_pop? hp with
        ⟨p, rfl, _, rfl⟩ | ⟨hpartial, hworth, rfl⟩ | ⟨terms, hpartial, hworth, _, rfl⟩
      · have hkept : m.prunes p.root = false := by simp [Manner.prunes, p.complete]
        simp [hkept]
      · have hpruned : m.prunes t = true := Manner.prunes_iff.mpr ⟨hpartial, hworth⟩
        simp [hpruned]
      · have hkept : m.prunes t = false := by simp [Manner.prunes, hworth]
        simp [hkept]

/-- **What has been reported are the remarks on what has been popped.** -/
theorem Popped.events_eq (h : Popped m problem bound ts st) :
    st.journal.events = ts.flatMap m.remarked := by
  induction h with
  | start => rfl
  | @turn ts t rest st st' _ hp hturn ih =>
      rw [List.flatMap_append, ← ih]
      rcases hturn.cases_of_pop? hp with
        ⟨p, rfl, _, rfl⟩ | ⟨hpartial, _, rfl⟩ | ⟨terms, hpartial, _, _, rfl⟩
      · simp [Manner.remarked, p.complete, Journal.polled]
      · simp [Manner.remarked, hpartial, Journal.polled]
      · simp [Manner.remarked, hpartial, Journal.polled]

/-- The candidates among the terms popped have been turned down. -/
theorem Popped.isValid_eq (h : Popped m problem bound ts st) {p : Program} (hp : p.root ∈ ts) :
    p.isValid problem.examples = .ok false := by
  induction h with
  | start => cases hp
  | @turn ts t rest st st' _ hpop hturn ih =>
      rcases List.mem_append.mp hp with hbefore | hlast
      · exact ih hbefore
      · obtain rfl := List.mem_singleton.mp hlast
        rcases hturn.cases_of_pop? hpop with ⟨q, hq, hinvalid, _⟩ | ⟨hpartial, _⟩ | ⟨_, hpartial, _⟩
        · obtain rfl : q = p := Program.eq_of_root hq
          exact hinvalid
        · rw [p.complete] at hpartial
          cases hpartial
        · rw [p.complete] at hpartial
          cases hpartial

/-! ## Turns and visits -/

/-- The frontier holds the survivors in the queue of a sweep. -/
def Abreast (m : Manner) (g : Grammar) (w : Sweep) (st : State) : Prop :=
  st.frontier.toList = survivors m g w.queue

/-- A turn that pops the term of a survivor is a visit to it. -/
theorem Turn.abreast {w : Sweep} {x : Place} {before : List Place}
    (h : Turn m problem bound .never st st')
    (habreast : Abreast m problem.grammar w st) (hqueue : w.queue = x :: before)
    (hx : Of problem.grammar bound problem.grammar.startSymbol x)
    (hsurvives : x.survives m problem.grammar = true) :
    Abreast m problem.grammar (w.step problem.grammar bound) st'
      ∧ ∃ rest, st.frontier.pop? = some (x.term, rest) := by
  have hlist := habreast
  rw [Abreast, hqueue, survivors_cons_of_survives hsurvives] at hlist
  obtain ⟨rest, hp, hrest⟩ := Frontier.exists_pop? hlist
  refine ⟨?_, rest, hp⟩
  rw [Abreast, (Sweep.survivors_step_of_survives hqueue hsurvives).2, survivors, survivors,
    hx.filter_next, hsurvives, Bool.true_and]
  rcases h.cases_of_pop? hp with
    ⟨p, hp, _, rfl⟩ | ⟨hpartial, hworth, rfl⟩ | ⟨terms, _, hworth, hexp, rfl⟩
  · -- there is no place below a complete term
    have hnone : x.next problem.grammar bound = [] := by
      rw [Place.next, Term.choices_of_isComplete (hp ▸ p.complete)]
      rfl
    simpa [hnone, survivors] using hrest
  · have hpruned : m.prunes x.term = true := Manner.prunes_iff.mpr ⟨hpartial, hworth⟩
    simpa [hpruned, survivors] using hrest
  · have hkept : m.prunes x.term = false := by simp [Manner.prunes, hworth]
    have hterms := Term.eq_choices_of_expand hexp
    rw [hkept, Frontier.toList_append, hrest, hterms, Bool.not_false, if_pos rfl,
      Place.map_term_next, survivors]

theorem abreast_initial (m : Manner) (g : Grammar) :
    Abreast m g (.start g.startSymbol) (.initial g) := rfl

/-- If there is something left to pop, the sweep comes to its place next, except for places that do
not survive. -/
theorem Abreast.exists_visit {n : Nat} {t : Term} {rest : Frontier}
    (h : Abreast m g (g.sweep bound n) st) (hp : st.frontier.pop? = some (t, rest)) :
    ∃ k x waiting, (g.sweep bound k).queue = x :: waiting ∧ x.term = t ∧ x.survives m g = true
      ∧ survivors m g (g.sweep bound k).visited = survivors m g (g.sweep bound n).visited
      ∧ Abreast m g (g.sweep bound k) st := by
  have hlist := h.symm.trans (Frontier.toList_of_pop? hp)
  obtain ⟨k, x, waiting, hqueue, hx, hsurvives, hvisited, hwaiting⟩ :=
    Sweep.exists_survivor_next hlist
  refine ⟨k, x, waiting, hqueue, hx, hsurvives, hvisited, ?_⟩
  rw [Abreast, Frontier.toList_of_pop? hp, hqueue, survivors_cons_of_survives hsurvives, hwaiting,
    hx]

/-- **What has been popped are the survivors among the first places of the sweep.** -/
theorem Popped.exists_stage (h : Popped m problem bound ts st) :
    ∃ n, ts = survivors m problem.grammar (problem.grammar.sweep bound n).visited
      ∧ Abreast m problem.grammar (problem.grammar.sweep bound n) st := by
  induction h with
  | start => exact ⟨0, rfl, abreast_initial m problem.grammar⟩
  | turn _ hp hturn ih =>
      obtain ⟨n, hts, habreast⟩ := ih
      obtain ⟨k, x, waiting, hqueue, rfl, hsurvives, hvisited, habreast'⟩ :=
        habreast.exists_visit hp
      have hx := Grammar.of_queue hqueue
      refine ⟨k + 1, ?_, ?_⟩
      · rw [Grammar.sweep_succ, (Sweep.survivors_step_of_survives hqueue hsurvives).1, hvisited,
          ← hts]
      · rw [Grammar.sweep_succ]
        exact (hturn.abreast habreast' hqueue hx hsurvives).1

/-- **A search gets as far as any stage of the sweep,** unless it ends before. -/
theorem exists_popped_of_stage (m : Manner) (problem : Problem) (bound : Option Nat) (n : Nat) :
    ∃ ts st, Popped m problem bound ts st
      ∧ (ts = survivors m problem.grammar (problem.grammar.sweep bound n).visited
          ∧ Abreast m problem.grammar (problem.grammar.sweep bound n) st
        ∨ ts <+: survivors m problem.grammar (problem.grammar.sweep bound n).visited
          ∧ ∃ r, Ending m problem .never st r) := by
  induction n with
  | zero => exact ⟨[], _, .start, Or.inl ⟨rfl, abreast_initial m problem.grammar⟩⟩
  | succ n ih =>
      rw [Grammar.sweep_succ]
      obtain ⟨ts, st, hts, ⟨rfl, habreast⟩ | ⟨hbegun, hend⟩⟩ := ih
      · cases hqueue : (problem.grammar.sweep bound n).queue with
        | nil =>
            -- the sweep is over
            rw [Sweep.step_eq_self hqueue]
            exact ⟨_, st, hts, Or.inl ⟨rfl, habreast⟩⟩
        | cons x waiting =>
            have hx := Grammar.of_queue hqueue
            cases hsurvives : x.survives m problem.grammar with
            | false =>
                obtain ⟨hvisited, hqueued⟩ :=
                  Sweep.survivors_step_of_not_survives hqueue hx hsurvives
                exact ⟨_, st, hts, Or.inl ⟨hvisited.symm, habreast.trans hqueued.symm⟩⟩
            | true =>
                rw [(Sweep.survivors_step_of_survives hqueue hsurvives).1]
                rcases turn_or_ending m problem bound .never st with ⟨st', hturn⟩ | hend
                · obtain ⟨habreast', rest, hp⟩ := hturn.abreast habreast hqueue hx hsurvives
                  exact ⟨_, st', .turn hts hp hturn, Or.inl ⟨rfl, habreast'⟩⟩
                · exact ⟨_, st, hts, Or.inr ⟨List.prefix_append _ _, hend⟩⟩
      · -- an ended search is not concerned by more visits
        refine ⟨ts, st, hts, Or.inr ⟨hbegun.trans ?_, hend⟩⟩
        exact survivors_prefix (Sweep.visited_prefix_step _)

/-! ## Where the search ends -/

/-- The term popped last is that of a survivor, and the survivors before have been popped. -/
theorem Popped.exists_place (h : Popped m problem bound ts st) {t : Term} {rest : Frontier}
    (hp : st.frontier.pop? = some (t, rest)) :
    ∃ n x, Of problem.grammar bound problem.grammar.startSymbol x ∧ x.term = t
      ∧ x.survives m problem.grammar = true
      ∧ ts ++ [t] = survivors m problem.grammar (problem.grammar.sweep bound n).visited
      ∧ ∀ y, Of problem.grammar bound problem.grammar.startSymbol y → Earlier y.picks x.picks →
        y.survives m problem.grammar = true → y.term ∈ ts := by
  obtain ⟨n, hts, habreast⟩ := h.exists_stage
  obtain ⟨k, x, waiting, hqueue, rfl, hsurvives, hvisited, _⟩ := habreast.exists_visit hp
  have hx := Grammar.of_queue hqueue
  have hlast : (problem.grammar.sweep bound (k + 1)).visited
      = (problem.grammar.sweep bound k).visited ++ [x] := by
    rw [Grammar.sweep_succ, Sweep.step, hqueue]
  refine ⟨k + 1, x, hx, rfl, hsurvives, ?_, ?_⟩
  · rw [hlast, survivors_append, hvisited, ← hts, survivors_cons_of_survives hsurvives]
    rfl
  · intro y hy hearlier hysurvives
    have hyvisited : y ∈ (problem.grammar.sweep bound (k + 1)).visited :=
      (Grammar.sound_sweep (k + 1)).mem_visited_of_earlier hy (by simp [hlast]) hearlier
    rw [hlast] at hyvisited
    rcases List.mem_append.mp hyvisited with hbefore | hsame
    · rw [hts, ← hvisited]
      exact term_mem_survivors hbefore hysurvives
    · cases List.mem_singleton.mp hsame
      exact absurd hearlier hearlier.asymm

/-- A search with an empty frontier has popped all survivors. -/
theorem Popped.exists_last_stage (h : Popped m problem bound ts st)
    (hempty : st.frontier.toList = []) :
    ∃ n, ts = survivors m problem.grammar (problem.grammar.sweep bound n).visited
      ∧ ∀ k, survivors m problem.grammar (problem.grammar.sweep bound k).visited <+: ts := by
  obtain ⟨n, rfl, habreast⟩ := h.exists_stage
  exact ⟨n, rfl, Sweep.survivors_prefix_of_queue (habreast.symm.trans hempty)⟩

/-- A search that prunes nothing pops the terms of the sweep one by one. -/
theorem Popped.exists_sweep (h : Popped TopDown.manner problem bound ts st) :
    ∃ n, ts = (problem.grammar.sweep bound n).visited.map (·.term) := by
  have hclears : ∀ (picks : List Nat) (t : Term),
      TopDown.manner.clears problem.grammar t picks = true := by
    intro picks
    induction picks with
    | nil => exact fun t => rfl
    | cons i picks ih =>
        intro t
        have hkept : TopDown.manner.prunes t = false := by simp [Manner.prunes, TopDown.manner]
        rw [Manner.clears, hkept]
        cases (t.choices problem.grammar)[i]? with
        | none => rfl
        | some u => exact ih u
  obtain ⟨n, hts, _⟩ := h.exists_stage
  refine ⟨n, hts.trans ?_⟩
  rw [survivors, List.filter_eq_self.mpr fun x _ => hclears x.picks _]

end BreadthFirst

/-- What derives from a symbol and fits the bound has a place in the tree. -/
theorem Place.exists_of_derives {s : Symbol} {t : Term} (h : Derives g s t)
    (hfits : t.fits bound = true) : ∃ x, Of g bound s x ∧ x.term = t := by
  obtain ⟨n, hn⟩ := h
  obtain ⟨picks, hpicks⟩ := hn.exists_follow
  exact ⟨⟨picks, t⟩, of_iff.mpr ⟨of_follow hpicks, by simp [isLeft, hfits]⟩, rfl⟩

/-! ## What is left -/

namespace BreadthFirst

open Place (Of)

/-- The place is below that of a partial term that is not worth expanding. -/
def Lost (m : Manner) (problem : Problem) (bound : Option Nat) (y : Place) : Prop :=
  ∃ x, Of problem.grammar bound problem.grammar.startSymbol x ∧ x.Above y
    ∧ x.term.isComplete = false ∧ m.worthwhile x.term = .ok false

/-- The survivors among the first places that a sweep visits. -/
def expected (m : Manner) (problem : Problem) (bound : Option Nat) (n : Nat) : List Term :=
  survivors m problem.grammar (problem.grammar.sweep bound n).visited

/-- The program is the first one that is left after the terms popped. -/
structure FirstLeft (m : Manner) (problem : Problem) (bound : Option Nat) (ts : List Term)
    (p : Program) : Prop where
  derives : Derives problem.grammar problem.grammar.startSymbol p.root
  fits : p.root.fits bound = true
  valid : p.isValid problem.examples = .ok true
  /-- It is popped next. -/
  popped : ∃ n, ts ++ [p.root] = expected m problem bound n
  /-- It has a place that is not lost, and where a valid program comes earlier it is lost. -/
  first : ∃ x, Of problem.grammar bound problem.grammar.startSymbol x ∧ x.term = p.root
    ∧ ¬ Lost m problem bound x
    ∧ ∀ (y : Place) (q : Program), Of problem.grammar bound problem.grammar.startSymbol y →
      y.term = q.root → Earlier y.picks x.picks → q.isValid problem.examples = .ok true →
      Lost m problem bound y

/-- No program is left after the terms popped. -/
structure NoneLeft (m : Manner) (problem : Problem) (bound : Option Nat) (ts : List Term) :
    Prop where
  /-- The terms popped are all there are. -/
  popped : ∃ n, ts = expected m problem bound n ∧ ∀ k, expected m problem bound k <+: ts
  /-- A valid program derives in some way, and in all the ways it does it is lost. -/
  lost : ∀ q : Program, Derives problem.grammar problem.grammar.startSymbol q.root →
    q.root.fits bound = true → q.isValid problem.examples = .ok true →
    (∃ y, Of problem.grammar bound problem.grammar.startSymbol y ∧ y.term = q.root)
      ∧ ∀ y, Of problem.grammar bound problem.grammar.startSymbol y → y.term = q.root →
        Lost m problem bound y

variable {problem : Problem} {ts : List Term} {st : State}

/-- **To be lost is not to survive.** -/
theorem lost_iff {y : Place} (hy : Of problem.grammar bound problem.grammar.startSymbol y) :
    Lost m problem bound y ↔ y.survives m problem.grammar = false := by
  rw [hy.survives_eq_false_iff]
  simp only [Manner.prunes_iff]
  rfl

/-- A program that is valid has not been popped before the search ends. -/
theorem Popped.lost_of_isValid (h : Popped m problem bound ts st) {y : Place} {q : Program}
    (hy : Of problem.grammar bound problem.grammar.startSymbol y) (hq : y.term = q.root)
    (hvalid : q.isValid problem.examples = .ok true)
    (hpopped : y.survives m problem.grammar = true → y.term ∈ ts) : Lost m problem bound y := by
  rw [lost_iff hy]
  -- a survivor would have been popped and turned down
  by_contra hsurvives
  have hmem := hpopped (by simpa using hsurvives)
  rw [hq] at hmem
  rw [h.isValid_eq hmem] at hvalid
  cases hvalid

/-- A program that is accepted is the first one that is left. -/
theorem Popped.firstLeft (h : Popped m problem bound ts st) {p : Program} {rest : Frontier}
    (hp : st.frontier.pop? = some (p.root, rest)) (hvalid : p.isValid problem.examples = .ok true) :
    FirstLeft m problem bound ts p := by
  obtain ⟨n, x, hx, hterm, hsurvives, hts, hearlier⟩ := h.exists_place hp
  have hmet : p.root.Met problem.grammar bound problem.grammar.startSymbol := hterm ▸ hx.met
  refine ⟨hmet.derives_of_isComplete p.complete, hmet.fits_of_isComplete p.complete, hvalid,
    ⟨n, hts⟩, x, hx, hterm, ?_, ?_⟩
  · rw [lost_iff hx, hsurvives]
    exact Bool.noConfusion
  · intro y q hy hq hbefore hqvalid
    exact h.lost_of_isValid hy hq hqvalid (hearlier y hy hbefore)

/-- If there is nothing more to pop, no program is left. -/
theorem Popped.noneLeft (h : Popped m problem bound ts st) (hempty : st.frontier.toList = []) :
    NoneLeft m problem bound ts := by
  obtain ⟨n, hts, hall⟩ := h.exists_last_stage hempty
  refine ⟨⟨n, hts, hall⟩, ?_⟩
  intro q hderives hfits hvalid
  refine ⟨Place.exists_of_derives hderives hfits, ?_⟩
  intro y hy hq
  refine h.lost_of_isValid hy hq hvalid ?_
  intro hsurvives
  obtain ⟨k, hk⟩ := Sweep.exists_mem_visited hy
  exact (hall k).subset (term_mem_survivors hk hsurvives)

/-- **A run that finds a program has come to the first one that is left,** and has reported its
remarks and the program. -/
theorem firstLeft_of_ending (h : Popped m problem bound ts st) {r : Run} {p : Program}
    (hend : Ending m problem .never st r) (hfound : r.result = .ok (some p)) :
    FirstLeft m problem bound ts p
      ∧ r.journal.events = ts.flatMap m.remarked
          ++ [m.accepted p { st.tally with tried := st.tally.tried + 1 }] := by
  cases hend with
  | accepted hp _ hvalid =>
      cases hfound
      refine ⟨h.firstLeft hp hvalid, ?_⟩
      rw [← h.events_eq]
      rfl
  | exhausted _ => cases hfound
  | stopped _ _ => cases hfound
  | faultyCandidate _ _ _ => cases hfound
  | faultyVerdict _ _ _ _ => cases hfound
  | faultyExpansion _ _ _ _ _ => cases hfound

/-- **A run that finds nothing has popped all there is,** and has reported its remarks and that the
terms are exhausted. -/
theorem noneLeft_of_ending (h : Popped m problem bound ts st) {r : Run}
    (hend : Ending m problem .never st r) (hnone : r.result = .ok none) :
    NoneLeft m problem bound ts
      ∧ r.journal.events = ts.flatMap m.remarked ++ [m.exhausted st.tally] := by
  cases hend with
  | exhausted hempty =>
      refine ⟨h.noneLeft hempty, ?_⟩
      rw [← h.events_eq]
      rfl
  | stopped _ hraised => cases hraised
  | accepted _ _ _ => cases hnone
  | faultyCandidate _ _ _ => cases hnone
  | faultyVerdict _ _ _ _ => cases hnone
  | faultyExpansion _ _ _ _ _ => cases hnone

end BreadthFirst

namespace ConstraintBased

open Arithmetic (overflow timesY timesY_valid derives_expr_iff)
open BreadthFirst (Popped Ending FirstLeft NoneLeft Lost expected exists_popped_of_search
  exists_popped_of_stage firstLeft_of_ending noneLeft_of_ending)
open Place (Of)

/-- What a sound solver loses is below a term whose sketch does not reach some output. -/
theorem exists_not_reaches_of_lost {solver : Solver} (hsound : solver.Sound) {problem : Problem}
    {y : Place} (h : Lost (mannerWith solver problem.examples) problem bound y) :
    ∃ x s, Of problem.grammar bound problem.grammar.startSymbol x ∧ x.Above y
      ∧ x.term.sketch = .ok s ∧ ∃ e ∈ problem.examples, ¬ s.Reaches e := by
  obtain ⟨x, hx, habove, _, hverdict⟩ := h
  obtain ⟨s, hs, hunreached⟩ := hsound.exists_not_reaches hverdict
  exact ⟨x, s, hx, habove, hs, hunreached⟩

/--
**Constraint-based search is the plain search without what is below infeasible terms,** whatever
solver tells which terms are infeasible, and whether or not it is right.

The plain search pops the terms of the sweep one by one. What constraint-based search has popped, at
any time, are the survivors among the first of them; and whatever stage of the sweep is given, it
pops all survivors up to there, or ends before. A run that finds a program has come to the first
valid one that is left; a run that finds nothing has popped all survivors, and no valid program is
left. What the run reports are the examples on which the solver gave up, term by term, and at the
end the number of partial terms popped that are infeasible.
-/
theorem popped_are_survivors (solver : Solver) (problem : Problem) (bound : Option Nat) :
    (∀ ts st, Popped TopDown.manner problem bound ts st →
      ∃ n, ts = (problem.grammar.sweep bound n).visited.map (·.term))
    ∧ (∀ ts st, Popped (mannerWith solver problem.examples) problem bound ts st →
      ∃ n, ts = expected (mannerWith solver problem.examples) problem bound n)
    ∧ (∀ n, ∃ ts st, Popped (mannerWith solver problem.examples) problem bound ts st
      ∧ ts <+: expected (mannerWith solver problem.examples) problem bound n
      ∧ (ts = expected (mannerWith solver problem.examples) problem bound n
        ∨ ∃ r, Ending (mannerWith solver problem.examples) problem .never st r))
    ∧ ∀ fuel r, runWith solver problem bound .never fuel = some r →
      ∃ ts st, Popped (mannerWith solver problem.examples) problem bound ts st
        ∧ Ending (mannerWith solver problem.examples) problem .never st r
        ∧ (∀ p, r.result = .ok (some p) →
          FirstLeft (mannerWith solver problem.examples) problem bound ts p
          ∧ r.journal.events = ts.flatMap (mannerWith solver problem.examples).remarked
              ++ [.prunedAccepted p (ts.countP (mannerWith solver problem.examples).prunes)])
        ∧ (r.result = .ok none →
          NoneLeft (mannerWith solver problem.examples) problem bound ts
          ∧ r.journal.events = ts.flatMap (mannerWith solver problem.examples).remarked
              ++ [.prunedExhausted
                (ts.countP (mannerWith solver problem.examples).prunes)]) := by
  refine ⟨fun ts st h => h.exists_sweep, ?_, ?_, ?_⟩
  · intro ts st h
    obtain ⟨n, hts, _⟩ := h.exists_stage
    exact ⟨n, hts⟩
  · intro n
    obtain ⟨ts, st, hpopped, ⟨hts, _⟩ | ⟨hbegun, hend⟩⟩ :=
      exists_popped_of_stage (mannerWith solver problem.examples) problem bound n
    · exact ⟨ts, st, hpopped, hts ▸ List.prefix_refl _, Or.inl hts⟩
    · exact ⟨ts, st, hpopped, hbegun, Or.inr hend⟩
  · intro fuel r hrun
    obtain ⟨ts, st, hpopped, hend⟩ := exists_popped_of_search hrun
    refine ⟨ts, st, hpopped, hend, ?_, ?_⟩
    · intro p hfound
      rw [← hpopped.pruned_eq]
      exact firstLeft_of_ending hpopped hend hfound
    · intro hnone
      rw [← hpopped.pruned_eq]
      exact noneLeft_of_ending hpopped hend hnone

/-- A solver that can tell nothing. -/
def clueless : Solver := fun _ _ => .unknown

/-- For nine, the built-in solver has two terms pruned on the way to the square of `z`. Where only a
product that wraps around will do, nothing is found, and that product is lost. A solver that can
tell nothing has nothing pruned, and its doubt about the start symbol is reported. -/
theorem popped_are_survivors_overflow :
    (∃ ts, FirstLeft (mannerWith .builtIn nine) ⟨.arithmetic, nine⟩ (some 2) ts squareZ.program
      ∧ ts.countP (mannerWith .builtIn nine).prunes = 2)
    ∧ (∃ ts, NoneLeft (mannerWith .builtIn overflow) ⟨.arithmetic, overflow⟩ (some 2) ts
      ∧ ts.countP (mannerWith .builtIn overflow).prunes = 5
      ∧ ∃ y, y.term = timesY.program.root
        ∧ Lost (mannerWith .builtIn overflow) ⟨.arithmetic, overflow⟩ (some 2) y)
    ∧ ∃ ts, NoneLeft (mannerWith clueless nine) ⟨.arithmetic, nine⟩ (some 1) ts
      ∧ ts.countP (mannerWith clueless nine).prunes = 0
      ∧ ts.flatMap (mannerWith clueless nine).remarked
        = nine.map (.undecided (.leaf (.nonTerminal "E"))) := by
  refine ⟨?_, ?_, ?_⟩
  · have hends : (runWith .builtIn ⟨.arithmetic, nine⟩ (some 2) .never 200).map
        (fun r => (r.result, r.journal.events))
        = some (.ok (some squareZ.program), [.prunedAccepted squareZ.program 2]) := by
      decide +kernel
    obtain ⟨r, hrun, hvisible⟩ := Option.map_eq_some_iff.mp hends
    obtain ⟨hfound, hevents⟩ := Prod.mk.inj hvisible
    obtain ⟨_, _, _, hruns⟩ := popped_are_survivors .builtIn ⟨.arithmetic, nine⟩ (some 2)
    obtain ⟨ts, _, _, _, haccepted, _⟩ := hruns 200 r hrun
    obtain ⟨hfirst, hreports⟩ := haccepted _ hfound
    rw [hevents, ← List.nil_append [_]] at hreports
    obtain ⟨_, hlast⟩ := List.append_inj' hreports rfl
    exact ⟨ts, hfirst, by simpa using hlast.symm⟩
  · have hends : (runWith .builtIn ⟨.arithmetic, overflow⟩ (some 2) .never 400).map
        (fun r => (r.result, r.journal.events)) = some (.ok none, [.prunedExhausted 5]) := by
      decide +kernel
    obtain ⟨r, hrun, hvisible⟩ := Option.map_eq_some_iff.mp hends
    obtain ⟨hnone, hevents⟩ := Prod.mk.inj hvisible
    obtain ⟨_, _, _, hruns⟩ := popped_are_survivors .builtIn ⟨.arithmetic, overflow⟩ (some 2)
    obtain ⟨ts, _, _, _, _, hexhausted⟩ := hruns 400 r hrun
    obtain ⟨hleft, hreports⟩ := hexhausted hnone
    rw [hevents, ← List.nil_append [_]] at hreports
    obtain ⟨_, hlast⟩ := List.append_inj' hreports rfl
    have hderives : Derives .arithmetic (.nonTerminal "E") timesY.program.root :=
      derives_expr_iff.mpr ⟨timesY, rfl⟩
    obtain ⟨⟨y, hy, hterm⟩, hlost⟩ := hleft.lost _ hderives (by decide) timesY_valid
    exact ⟨ts, hleft, by simpa using hlast.symm, y, hterm, hlost y hy hterm⟩
  · have hends : (runWith clueless ⟨.arithmetic, nine⟩ (some 1) .never 20).map
        (fun r => (r.result, r.journal.events))
        = some (.ok none, nine.map (.undecided (.leaf (.nonTerminal "E")))
            ++ [.prunedExhausted 0]) := by
      decide +kernel
    obtain ⟨r, hrun, hvisible⟩ := Option.map_eq_some_iff.mp hends
    obtain ⟨hnone, hevents⟩ := Prod.mk.inj hvisible
    obtain ⟨_, _, _, hruns⟩ := popped_are_survivors clueless ⟨.arithmetic, nine⟩ (some 1)
    obtain ⟨ts, _, _, _, _, hexhausted⟩ := hruns 20 r hrun
    obtain ⟨hleft, hreports⟩ := hexhausted hnone
    rw [hevents] at hreports
    obtain ⟨hremarks, hlast⟩ := List.append_inj' hreports rfl
    exact ⟨ts, hleft, by simpa using hlast.symm, hremarks.symm⟩

end ConstraintBased

end Sygus
