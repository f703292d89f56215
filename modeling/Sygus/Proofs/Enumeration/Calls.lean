import Sygus.Proofs.Enumeration.Sweep

/-!
# Calls of an enumerator as a sweep

An enumerator sweeps the tree of derivations: its frontier holds the terms of the places that are
queued, and each term that it takes out is one visit. Places whose terms are complete or stuck
have an **outcome**, and these are what calls hand out. So the answers of successive calls are
the outcomes of the places visited, and nothing from then on when the queue is empty.

Whether a call ends is another matter. Calls do end as long as the sweep has an outcome to come,
so for every stage of the sweep there are calls that hand out the outcomes up to there.
-/

namespace Sygus

open Relation (ReflTransGen)

variable {g : Grammar} {bound : Option Nat} {s : Symbol}

/-- What a call hands out when it comes to a term, if it does not expand it. -/
def Term.outcome? (g : Grammar) (t : Term) : Option (Except Fault (Option Program)) :=
  match Program.ofTerm? t with
  | some p => some (.ok (some p))
  | none =>
    match t.expand g with
    | .error fault => some (.error fault)
    | .ok _ => none

theorem Term.outcome?_of_program (p : Program) : p.root.outcome? g = some (.ok (some p)) := by
  simp [outcome?, Program.ofTerm?, p.complete]

theorem Term.outcome?_of_not_isComplete {t : Term} (h : t.isComplete = false) :
    t.outcome? g = match t.expand g with
      | .error fault => some (.error fault)
      | .ok _ => none := by
  simp [outcome?, Program.ofTerm?, h]

/-- The outcomes of places, in their order. -/
def outcomes (g : Grammar) (places : List Place) : List (Except Fault (Option Program)) :=
  places.filterMap (·.term.outcome? g)

theorem outcomes_concat (places : List Place) (x : Place) :
    outcomes g (places ++ [x]) = outcomes g places ++ (x.term.outcome? g).toList := by
  unfold outcomes
  rw [List.filterMap_append]
  cases hx : x.term.outcome? g <;> simp [hx]

/-- Nothing is no outcome. -/
theorem ok_none_not_mem_outcomes (places : List Place) : .ok none ∉ outcomes g places := by
  intro hmem
  obtain ⟨x, _, hx⟩ := List.mem_filterMap.mp hmem
  unfold Term.outcome? at hx
  split at hx
  · cases hx
  · split at hx <;> cases hx

namespace Enumerator

/-- Successive calls that are not stopped, with their answers. -/
inductive Calls (g : Grammar) :
    Enumerator → List (Except Fault (Option Program)) → Enumerator → Prop where
  | nil {e : Enumerator} : Calls g e [] e
  | cons {e e' : Enumerator} {fuel : Nat} {j : Journal} {pull : Pull}
      {answers : List (Except Fault (Option Program))} :
      next g .never fuel e j = some pull → Calls g pull.rest answers e' →
      Calls g e (pull.result :: answers) e'

/-- Successive calls with their answers, each of which may be stopped at any moment. -/
inductive Pulls (g : Grammar) :
    Enumerator → List (Except Fault (Option Program)) → Enumerator → Prop where
  | nil {e : Enumerator} : Pulls g e [] e
  | cons {e e' : Enumerator} {stop : Stop} {fuel : Nat} {j : Journal} {pull : Pull}
      {answers : List (Except Fault (Option Program))} :
      next g stop fuel e j = some pull → Pulls g pull.rest answers e' →
      Pulls g e (pull.result :: answers) e'

variable {e e₁ e' e'' : Enumerator} {answer : Except Fault (Option Program)}
  {answers : List (Except Fault (Option Program))} {w : Sweep} {p : Program}

/-- Calls after calls. -/
theorem Pulls.append {answers' : List (Except Fault (Option Program))} (h : Pulls g e answers e')
    (h' : Pulls g e' answers' e'') : Pulls g e (answers ++ answers') e'' := by
  induction h with
  | nil => exact h'
  | cons hnext _ ih => exact .cons hnext (ih h')

theorem Calls.append {answers' : List (Except Fault (Option Program))} (h : Calls g e answers e')
    (h' : Calls g e' answers' e'') : Calls g e (answers ++ answers') e'' := by
  induction h with
  | nil => exact h'
  | cons hnext _ ih => exact .cons hnext (ih h')

/-- The first answers of calls are those of the first calls. -/
theorem Calls.of_append {answers' : List (Except Fault (Option Program))}
    (h : Calls g e (answers ++ answers') e'') : ∃ e', Calls g e answers e' := by
  induction answers generalizing e with
  | nil => exact ⟨e, .nil⟩
  | cons answer answers ih =>
      cases h with
      | cons hnext hrest =>
          obtain ⟨e', hcalls⟩ := ih hrest
          exact ⟨e', .cons hnext hcalls⟩

/-- Turns and an ending, and calls from there on. -/
theorem Calls.cons_of_turns (hturns : ReflTransGen (Turn g) e e₁)
    (hend : Ending g .never e₁ answer e') (h : Calls g e' answers e'') :
    Calls g e (answer :: answers) e'' := by
  obtain ⟨fuel, j, hnext⟩ := exists_next_of_turns hturns hend .empty
  exact .cons hnext h

/-- A turn belongs to the call that comes after it. -/
theorem Turn.calls (hturn : Turn g e e') (h : Calls g e' answers e'') (hne : answers ≠ []) :
    Calls g e answers e'' := by
  cases h with
  | nil => exact absurd rfl hne
  | cons hnext hrest =>
      obtain ⟨e₁, hturns, hend⟩ := next_cases hnext
      exact .cons_of_turns (.head hturn hturns) hend hrest

/-- One more call. -/
theorem Calls.concat (h : Calls g e answers e') (hturns : ReflTransGen (Turn g) e' e'')
    {e₃ : Enumerator} (hend : Ending g .never e'' answer e₃) :
    Calls g e (answers ++ [answer]) e₃ := by
  induction h with
  | nil => exact .cons_of_turns hturns hend .nil
  | cons hnext _ ih => exact .cons hnext (ih hturns)

/-- The enumerator is at this stage of a sweep. -/
structure At (bound : Option Nat) (w : Sweep) (e : Enumerator) : Prop where
  frontier : e.frontier.toList = w.queue.map (·.term)
  bound : e.bound = bound

theorem at_start (s : Symbol) (bound : Option Nat) :
    At bound (.start s) ((ofSymbol s).withBound bound) := ⟨rfl, rfl⟩

/-- The place whose term an enumerator takes out next. -/
theorem At.exists_queue (h : At bound w e) {t : Term} {frontier : Frontier}
    (hp : e.frontier.pop? = some (t, frontier)) :
    ∃ x rest, w.queue = x :: rest ∧ x.term = t ∧ frontier.toList = rest.map (·.term) := by
  have hlist := h.frontier
  rw [Frontier.toList_of_pop? hp] at hlist
  obtain ⟨x, rest, hqueue, ht, hrest⟩ := List.map_eq_cons_iff.mp hlist.symm
  exact ⟨x, rest, hqueue, ht, hrest.symm⟩

/-- An enumerator that has put the choices of the next place in the queue has visited it. -/
theorem At.step (h : At bound w e) {x : Place} {rest : List Place} (hqueue : w.queue = x :: rest)
    (hlist : e'.frontier.toList
      = rest.map (·.term) ++ (x.term.choices g).filter (·.fits bound))
    (hbound : e'.bound = e.bound) : At bound (w.step g bound) e' := by
  obtain ⟨visited, queue⟩ := w
  subst hqueue
  refine ⟨?_, hbound.trans h.bound⟩
  show e'.frontier.toList = (rest ++ x.next g bound).map (·.term)
  rw [hlist, List.map_append, x.map_term_next]

/-- A visit adds the outcome of the place, if it has one. -/
theorem outcomes_step {x : Place} {rest : List Place} (hqueue : w.queue = x :: rest) :
    outcomes g (w.step g bound).visited = outcomes g w.visited ++ (x.term.outcome? g).toList := by
  obtain ⟨visited, queue⟩ := w
  subst hqueue
  exact outcomes_concat visited x

/-- **A turn is a visit without an outcome.** -/
theorem At.of_turn (h : At bound w e) (hturn : Turn g e e') :
    At bound (w.step g bound) e' ∧ outcomes g (w.step g bound).visited = outcomes g w.visited := by
  cases hturn with
  | @expand t frontier terms hp hpartial hexp =>
      obtain ⟨x, rest, hqueue, rfl, hrest⟩ := h.exists_queue hp
      have hterms := Term.eq_choices_of_expand hexp
      refine ⟨h.step hqueue ?_ rfl, ?_⟩
      · rw [toList_enqueue, ← hrest, ← hterms, ← h.bound]
      · rw [outcomes_step hqueue, Term.outcome?_of_not_isComplete hpartial, hexp]
        exact List.append_nil _

/-- **An ending is a visit with an outcome,** unless there is nothing left to visit. -/
theorem At.of_ending (h : At bound w e) (hend : Ending g .never e answer e') :
    w.queue = [] ∧ answer = .ok none ∧ e' = e
      ∨ At bound (w.step g bound) e'
        ∧ outcomes g (w.step g bound).visited = outcomes g w.visited ++ [answer] := by
  cases hend with
  | dry hdry =>
      rw [h.frontier, List.map_eq_nil_iff] at hdry
      exact Or.inl ⟨hdry, rfl, rfl⟩
  | stopped _ hraised => cases hraised
  | @handed p frontier hp =>
      obtain ⟨x, rest, hqueue, hx, hrest⟩ := h.exists_queue hp
      have hchoices : x.term.choices g = [] := by
        rw [hx]
        exact Term.choices_of_isComplete p.complete
      refine Or.inr ⟨h.step hqueue ?_ rfl, ?_⟩
      · rw [hchoices, List.filter_nil, List.append_nil]
        exact hrest
      · rw [outcomes_step hqueue, hx, Term.outcome?_of_program]
        rfl
  | @failed t frontier fault hp hpartial hexp =>
      obtain ⟨x, rest, hqueue, rfl, hrest⟩ := h.exists_queue hp
      obtain ⟨category, hstuck, _⟩ := Term.exists_stuckAt_of_expand hexp
      refine Or.inr ⟨h.step hqueue ?_ rfl, ?_⟩
      · rw [hstuck.choices_eq, List.filter_nil, List.append_nil]
        exact hrest
      · rw [outcomes_step hqueue, Term.outcome?_of_not_isComplete hpartial, hexp]
        rfl

theorem At.of_turns (h : At bound w e) (hturns : ReflTransGen (Turn g) e e') :
    ∃ n, At bound ((Sweep.step g bound)^[n] w) e'
      ∧ outcomes g ((Sweep.step g bound)^[n] w).visited = outcomes g w.visited := by
  induction hturns with
  | refl => exact ⟨0, h, rfl⟩
  | tail _ hturn ih =>
      obtain ⟨n, hat, heq⟩ := ih
      obtain ⟨hat', heq'⟩ := hat.of_turn hturn
      refine ⟨n + 1, ?_, ?_⟩
      · rw [Function.iterate_succ_apply']
        exact hat'
      · rw [Function.iterate_succ_apply', heq', heq]

/-- **The answers of calls are the outcomes of a sweep,** and nothing once it is over. -/
theorem At.of_calls (h : At bound w e) (hcalls : Calls g e answers e') :
    ∃ n rs k, At bound ((Sweep.step g bound)^[n] w) e'
      ∧ outcomes g ((Sweep.step g bound)^[n] w).visited = outcomes g w.visited ++ rs
      ∧ answers = rs ++ List.replicate k (.ok none)
      ∧ (k ≠ 0 → ((Sweep.step g bound)^[n] w).queue = []) := by
  induction hcalls generalizing w with
  | nil => exact ⟨0, [], 0, h, (List.append_nil _).symm, rfl, fun hk => absurd rfl hk⟩
  | @cons e e' fuel j pull answers hnext hcalls ih =>
      obtain ⟨e₁, hturns, hend⟩ := next_cases hnext
      obtain ⟨m, hat, heq⟩ := h.of_turns hturns
      rcases hat.of_ending hend with ⟨hempty, hanswer, hrest⟩ | ⟨hat', heq'⟩
      · -- nothing is left, and nothing will come
        obtain ⟨n, rs, k, hat', hout, rfl, _⟩ := ih (hrest ▸ hat)
        have hfixed : (Sweep.step g bound)^[n] ((Sweep.step g bound)^[m] w)
            = (Sweep.step g bound)^[m] w := Function.iterate_fixed (Sweep.step_eq_self hempty) n
        rw [hfixed] at hat' hout
        have hrs : rs = [] := List.append_right_eq_self.mp hout.symm
        subst hrs
        refine ⟨m, [], k + 1, hat', by rw [heq, List.append_nil], ?_, fun _ => hempty⟩
        rw [hanswer]
        rfl
      · obtain ⟨n, rs, k, hat'', hout, rfl, hk⟩ := ih hat'
        have hiterate : (Sweep.step g bound)^[n + (m + 1)] w
            = (Sweep.step g bound)^[n] (((Sweep.step g bound)^[m] w).step g bound) := by
          rw [Function.iterate_add_apply, Function.iterate_succ_apply']
        refine ⟨n + (m + 1), pull.result :: rs, k, ?_, ?_, rfl, ?_⟩
        · rw [hiterate]
          exact hat''
        · rw [hiterate, hout, heq', heq, List.append_assoc]
          rfl
        · rw [hiterate]
          exact hk

/-- Before a program comes, something comes with every call. -/
theorem ok_none_not_mem_of_calls (h : Calls g ((ofSymbol s).withBound bound)
    (answers ++ [.ok (some p)]) e') : .ok none ∉ answers := by
  obtain ⟨n, rs, k, _, hrs, hanswers, _⟩ := (at_start s bound).of_calls h
  -- the last answer is a program, so it is an outcome, and so are those before it
  have hk : k = 0 := by
    rcases Nat.eq_zero_or_pos k with hk | hk
    · exact hk
    · obtain ⟨k, rfl⟩ : ∃ m, k = m + 1 := ⟨k - 1, by omega⟩
      rw [List.replicate_succ', ← List.append_assoc] at hanswers
      cases List.append_singleton_inj.mp hanswers |>.2
  have hnone := ok_none_not_mem_outcomes (g := g) ((Sweep.step g bound)^[n] (.start s)).visited
  rw [hk, List.replicate_zero, List.append_nil] at hanswers
  have hrs' : outcomes g ((Sweep.step g bound)^[n] (.start s)).visited = rs := hrs
  rw [hrs', ← hanswers] at hnone
  exact fun hmem => hnone (List.mem_append_left _ hmem)

/-- **Calls get through any stage of a sweep.** After them the enumerator is a number of turns
before that stage. -/
theorem exists_calls (g : Grammar) (bound : Option Nat) (s : Symbol) (n : Nat) :
    ∃ e e', Calls g ((ofSymbol s).withBound bound) (outcomes g (Sweep.after g bound s n).visited) e
      ∧ ReflTransGen (Turn g) e e' ∧ At bound (Sweep.after g bound s n) e' := by
  induction n with
  | zero => exact ⟨_, _, .nil, .refl, at_start s bound⟩
  | succ n ih =>
      obtain ⟨e, e', hcalls, hturns, hat⟩ := ih
      rw [Sweep.after_succ]
      rcases turn_or_ending g e' with ⟨e'', hturn⟩ | ⟨answer, e'', hend⟩
      · obtain ⟨hat', heq⟩ := hat.of_turn hturn
        rw [heq]
        exact ⟨e, e'', hcalls, hturns.tail hturn, hat'⟩
      · rcases hat.of_ending hend with ⟨hempty, _, _⟩ | ⟨hat', heq⟩
        · rw [Sweep.step_eq_self hempty]
          exact ⟨e, e', hcalls, hturns, hat⟩
        · rw [heq]
          exact ⟨e'', e'', hcalls.concat hturns hend, .refl, hat'⟩

end Enumerator

end Sygus
