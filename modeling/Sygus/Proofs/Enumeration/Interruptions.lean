import Mathlib.Data.List.Sort
import Sygus.Proofs.Enumeration.Depth

/-!
# Interrupted enumeration

Between two calls the bound of an enumerator may change, and a call may find the flag up. The term
that such a call has taken out of the frontier is **lost**, and nothing below its place will ever be
queued. A bound cuts off places that are too deep, together with all that is below them. Nothing
else goes astray: at any time, a derivation that ends has been handed out, or it goes through a place
that was lost or cut off, or through one that is still waiting.

A **tour** is a sweep under these conditions. It remembers what became of each place that it has
visited, and the invariant of a sweep is still the whole argument: what has been queued is the root
and what the visits have left of the places below those visited.
-/

namespace Sygus

open Relation (ReflTransGen)

variable {g : Grammar} {s : Symbol} {bound : Option Nat}

/-- More choices come later. -/
theorem Earlier.extend {a b c : List Nat} (h : Earlier a b) (hleads : b <+: c) :
    Earlier a c := by
  have hlength := hleads.length_le
  rcases List.shortlex_def.mp h with hlt | ⟨heq, hlex⟩
  · exact .of_length_lt (by omega)
  · rcases Nat.lt_or_ge b.length c.length with hlt | hge
    · exact .of_length_lt (by omega)
    · rw [← hleads.eq_of_length (by omega)]
      exact h

/-- A derivation that goes through a place goes on with the term of that place. -/
theorem Term.follow_append {t : Term} {picks picks' : List Nat} :
    t.follow g (picks ++ picks') = (t.follow g picks).bind fun u => u.follow g picks' := by
  induction picks generalizing t with
  | nil => rfl
  | cons i picks ih =>
      rw [List.cons_append, follow, follow]
      cases (t.choices g)[i]? with
      | none => rfl
      | some u => exact ih

/-! ## Visits -/

/-- What becomes of a place when its term is taken out of the frontier. -/
inductive Fate where
  /-- The term is handed out or expanded under this bound, or the call fails on it. -/
  | served (bound : Option Nat)
  /-- The flag is up. -/
  | lost
  deriving DecidableEq

/-- A place whose term has been taken out of the frontier. -/
structure Visit where
  place : Place
  fate : Fate
  deriving DecidableEq

namespace Visit

/-- Visits of places that are served under a bound. -/
def ofServed (bound : Option Nat) (places : List Place) : List Visit :=
  places.map fun x => ⟨x, .served bound⟩

/-- The places that a visit queues. -/
def queued (g : Grammar) (v : Visit) : List Place :=
  match v.fate with
  | .served bound => v.place.next g bound
  | .lost => []

/-- A place that has been served. -/
def served? (v : Visit) : Option Place :=
  match v.fate with
  | .served _ => some v.place
  | .lost => none

/-- A visit cuts off the derivations that go through its place, if that is lost, or through a place
just below it that is too deep for the bound. -/
def CutsOff (g : Grammar) (v : Visit) (d : List Nat) : Prop :=
  match v.fate with
  | .served bound => ∃ y ∈ v.place.next g none, y.term.fits bound = false ∧ y.picks <+: d
  | .lost => v.place.picks <+: d

theorem CutsOff.extend {v : Visit} {d d' : List Nat} (h : v.CutsOff g d) (hleads : d <+: d') :
    v.CutsOff g d' := by
  obtain ⟨x, fate⟩ := v
  cases fate with
  | served bound =>
      obtain ⟨y, hy, hdeep, hd⟩ := h
      exact ⟨y, hy, hdeep, hd.trans hleads⟩
  | lost => exact List.IsPrefix.trans h hleads

/-- What a visit queues is just below its place. -/
theorem exists_picks_of_mem_queued {v : Visit} {y : Place} (h : y ∈ v.queued g) :
    y ∈ v.place.next g none ∧ ∃ i, y.picks = v.place.picks ++ [i] := by
  obtain ⟨x, fate⟩ := v
  cases fate with
  | served bound =>
      obtain ⟨i, u, hu, _, rfl⟩ := Place.mem_next.mp h
      exact ⟨Place.mem_next.mpr ⟨i, u, hu, rfl, rfl⟩, i, rfl⟩
  | lost => cases h

/-- A place just below one that has been served is queued, unless it is cut off. -/
theorem mem_queued_or_cutsOff {v : Visit} {x y : Place} (hv : v.served? = some x)
    (hy : y ∈ x.next g none) : y ∈ v.queued g ∨ v.CutsOff g y.picks := by
  obtain ⟨x', fate⟩ := v
  cases fate with
  | served bound =>
      cases hv
      obtain ⟨i, u, hu, _, rfl⟩ := Place.mem_next.mp hy
      cases hfits : u.fits bound with
      | true => exact Or.inl (Place.mem_next.mpr ⟨i, u, hu, hfits, rfl⟩)
      | false => exact Or.inr ⟨_, hy, hfits, List.prefix_refl _⟩
  | lost => cases hv

theorem served?_ofServed (bound : Option Nat) (places : List Place) :
    (ofServed bound places).filterMap served? = places := by
  rw [ofServed, List.filterMap_map]
  exact List.filterMap_some

end Visit

/-- The places that have been served, in their order. -/
def served (visits : List Visit) : List Place := visits.filterMap Visit.served?

theorem mem_served {visits : List Visit} {x : Place} :
    x ∈ served visits ↔ ∃ v ∈ visits, v.served? = some x := List.mem_filterMap

theorem served_sublist (visits : List Visit) : (served visits).Sublist (visits.map (·.place)) := by
  induction visits with
  | nil => exact .slnil
  | cons v visits ih =>
      obtain ⟨x, fate⟩ := v
      cases fate with
      | served bound => exact ih.cons_cons x
      | lost => exact ih.cons x

/-! ## Tours -/

/-- A sweep that may be interrupted. -/
structure Tour where
  visits : List Visit
  queue : List Place

namespace Tour

open Place (root Of)

/-- A tour that has not begun. -/
def start (s : Symbol) : Tour := ⟨[], [root s]⟩

/-- Visits the next place, if there is one. -/
def visit (g : Grammar) (fate : Fate) (t : Tour) : Tour :=
  match t.queue with
  | [] => t
  | x :: rest => ⟨t.visits ++ [⟨x, fate⟩], rest ++ Visit.queued g ⟨x, fate⟩⟩

/-- What has been queued so far. -/
def all (t : Tour) : List Place := t.visits.map (·.place) ++ t.queue

/-- What is so at all times of a tour. -/
structure Sound (g : Grammar) (s : Symbol) (t : Tour) : Prop where
  /-- What has been queued is the root and what the visits have queued. -/
  queued : t.all = root s :: t.visits.flatMap (·.queued g)
  /-- It has been queued in order. -/
  sorted : t.all.Pairwise fun x y => Earlier x.picks y.picks
  /-- It consists of places of the tree. -/
  places : ∀ x ∈ t.all, Of g none s x

theorem sound_start : (start s).Sound g s where
  queued := rfl
  sorted := List.pairwise_singleton _ _
  places x hx := by
    cases List.mem_singleton.mp hx
    exact .root

/-- **A visit keeps the order,** whatever becomes of the place. -/
theorem Sound.visit {t : Tour} (h : t.Sound g s) (fate : Fate) : (t.visit g fate).Sound g s := by
  obtain ⟨visits, queue⟩ := t
  cases queue with
  | nil => exact h
  | cons x rest =>
      have hall : (Tour.visit g fate ⟨visits, x :: rest⟩).all
          = all ⟨visits, x :: rest⟩ ++ Visit.queued g ⟨x, fate⟩ := by
        simp [Tour.visit, all]
      have hx : x ∈ all ⟨visits, x :: rest⟩ := List.mem_append_right _ List.mem_cons_self
      have hbefore : ∀ v ∈ visits, Earlier v.place.picks x.picks := fun v hv =>
        (List.pairwise_append.mp h.sorted).2.2 v.place (List.mem_map_of_mem hv) x
          List.mem_cons_self
      refine ⟨?_, ?_, ?_⟩
      · rw [hall, h.queued]
        simp [Tour.visit]
      · rw [hall]
        cases fate with
        -- nothing is queued in the place of what is lost
        | lost =>
            rw [Visit.queued, List.append_nil]
            exact h.sorted
        | served bound =>
            refine Place.pairwise_append_next h.sorted fun y hy => ?_
            rcases List.mem_cons.mp (h.queued ▸ hy) with rfl | hy
            · exact Or.inl rfl
            · obtain ⟨v, hv, hyv⟩ := List.mem_flatMap.mp hy
              obtain ⟨_, i, hi⟩ := Visit.exists_picks_of_mem_queued hyv
              exact Or.inr ⟨_, i, hbefore v hv, hi⟩
      · rw [hall, List.forall_mem_append]
        exact ⟨h.places, fun y hy =>
          .next (h.places x hx) (Visit.exists_picks_of_mem_queued hy).1⟩

/-- Some visit cuts off the derivation. -/
def CutsOff (g : Grammar) (t : Tour) (d : List Nat) : Prop := ∃ v ∈ t.visits, v.CutsOff g d

/-- The derivation goes through a place that has not been visited yet. -/
def Awaits (t : Tour) (d : List Nat) : Prop := ∃ x ∈ t.queue, x.picks <+: d

/-- What has been queued has been served or is cut off, or is waiting. -/
theorem served_or_of_mem_all {t : Tour} {y : Place} (hy : y ∈ t.all) :
    y ∈ served t.visits ∨ t.CutsOff g y.picks ∨ t.Awaits y.picks := by
  rcases List.mem_append.mp hy with hvisited | hwaiting
  · obtain ⟨⟨x, fate⟩, hv, rfl⟩ := List.mem_map.mp hvisited
    cases fate with
    | served bound => exact Or.inl (mem_served.mpr ⟨_, hv, rfl⟩)
    | lost => exact Or.inr (Or.inl ⟨_, hv, List.prefix_refl _⟩)
  · exact Or.inr (Or.inr ⟨y, hwaiting, List.prefix_refl _⟩)

/-- **Every place has been served, or is at or below one that is cut off or waiting.** -/
theorem Sound.served_or {t : Tour} (h : t.Sound g s) {y : Place} (hy : Of g none s y) :
    y ∈ served t.visits ∨ t.CutsOff g y.picks ∨ t.Awaits y.picks := by
  induction hy with
  | root => exact served_or_of_mem_all (by rw [h.queued]; exact List.mem_cons_self)
  | @next x y _ hy ih =>
      have hleads : x.picks <+: y.picks := by
        obtain ⟨i, u, _, _, rfl⟩ := Place.mem_next.mp hy
        exact List.prefix_append _ _
      rcases ih with hserved | ⟨v, hv, hcut⟩ | ⟨z, hz, hwaiting⟩
      -- the place above has been served, so this one was queued unless it was too deep
      · obtain ⟨v, hv, hx⟩ := mem_served.mp hserved
        rcases Visit.mem_queued_or_cutsOff hx hy with hqueued | hcut
        · refine served_or_of_mem_all ?_
          rw [h.queued]
          exact List.mem_cons_of_mem _ (List.mem_flatMap.mpr ⟨v, hv, hqueued⟩)
        · exact Or.inr (Or.inl ⟨v, hv, hcut⟩)
      · exact Or.inr (Or.inl ⟨v, hv, hcut.extend hleads⟩)
      · exact Or.inr (Or.inr ⟨z, hz, hwaiting.trans hleads⟩)

theorem Sound.of_served {t : Tour} (h : t.Sound g s) {x : Place} (hx : x ∈ served t.visits) :
    Of g none s x :=
  h.places x (List.mem_append_left _ ((served_sublist _).subset hx))

theorem Sound.pairwise_served {t : Tour} (h : t.Sound g s) :
    (served t.visits).Pairwise fun x y => Earlier x.picks y.picks :=
  (List.pairwise_append.mp h.sorted).1.sublist (served_sublist _)

/-- What goes through a place that is waiting comes later than all that has been served. -/
theorem Sound.earlier_of_awaits {t : Tour} (h : t.Sound g s) {x : Place}
    (hx : x ∈ served t.visits) {d : List Nat} (hd : t.Awaits d) : Earlier x.picks d := by
  obtain ⟨y, hy, hleads⟩ := hd
  exact ((List.pairwise_append.mp h.sorted).2.2 x ((served_sublist _).subset hx) y hy).extend
    hleads

end Tour

/-- Places in order are a part of those that an uninterrupted sweep has visited at some time. -/
theorem Sweep.exists_sublist_visited {places : List Place}
    (hsorted : places.Pairwise fun x y => Earlier x.picks y.picks)
    (hplaces : ∀ x ∈ places, Place.Of g none s x) :
    ∃ n, places.Sublist (after g none s n).visited := by
  obtain ⟨n, hn⟩ := exists_forall_mem_visited hplaces
  -- both lists are in order, so it is enough that one has all that the other one has
  have hnodup : places.Nodup := hsorted.imp fun {x y} hearlier heq => by
    rw [heq] at hearlier
    exact hearlier.asymm hearlier
  have hantisymm : Std.Antisymm fun x y : Place => Earlier x.picks y.picks :=
    ⟨fun _ _ hxy hyx => absurd hyx hxy.asymm⟩
  exact ⟨n, List.sublist_of_subperm_of_pairwise (List.subperm_of_subset hnodup hn) hsorted
    (pairwise_visited n)⟩

/-- No program is to be had from a derivation that is stuck. -/
theorem Ends.not_prefix_of_error {d d' : List Nat} {fault : Fault} {p : Program}
    (h : Ends g s d' (.error fault)) (hd : Ends g s d (.ok (some p))) : ¬ d' <+: d := by
  rintro ⟨picks, rfl⟩
  cases h with
  | stuck ht hstuck =>
      cases hd with
      | complete hp =>
          rw [Term.follow_append, ht, Option.bind_some] at hp
          -- a term that is stuck is not complete, and it has no choices to go on with
          cases picks with
          | nil =>
              cases hp
              cases p.complete.symm.trans hstuck.isComplete_eq
          | cons i picks =>
              rw [Term.follow, hstuck.choices_eq] at hp
              cases hp

/-! ## Calls -/

namespace Enumerator

/-- A call as it looks from outside. -/
structure Call where
  /-- The bound in force. -/
  bound : Option Nat
  /-- Whether the flag is up when the call returns. -/
  up : Bool
  answer : Except Fault (Option Program)

/-- What a call hands out: a program, a fault, or nothing. -/
def Call.handed (c : Call) : List (Except Fault (Option Program)) :=
  match c.answer with
  | .ok none => []
  | answer => [answer]

/-- What a call has taken out of the frontier. -/
inductive Call.Took (g : Grammar) (c : Call) : List Visit → Prop where
  /-- Places are served under the bound in force, until one has an outcome or none is left. -/
  | served {places : List Place} : outcomes g places = c.handed →
      Took g c (Visit.ofServed c.bound places)
  /-- The flag is found up. One place is lost, and the call hands out nothing. -/
  | lost {places : List Place} {x : Place} : c.up = true → c.answer = .ok none →
      outcomes g places = [] → Took g c (Visit.ofServed c.bound places ++ [⟨x, .lost⟩])

/-- What can be done to an enumerator: its bound is changed, and it is called, be it that the flag is
up or goes up during the call. -/
inductive Story (g : Grammar) (s : Symbol) : List Call → Enumerator → Prop where
  | fresh : Story g s [] (ofSymbol s)
  | setBound {calls : List Call} {e : Enumerator} (bound : Option Nat) : Story g s calls e →
      Story g s calls (e.withBound bound)
  | call {calls : List Call} {e : Enumerator} {stop : Stop} {fuel : Nat} {j : Journal} {pull : Pull}
      {up : Bool} : Story g s calls e → next g stop fuel e j = some pull →
      (∀ j, stop.isRaised j = true → up = true) →
      Story g s (calls ++ [⟨e.bound, up, pull.result⟩]) pull.rest

variable {e e' : Enumerator} {t : Tour} {stop : Stop} {answer : Except Fault (Option Program)}

/-- The frontier of the enumerator holds what the tour has still to visit. -/
def Holds (e : Enumerator) (t : Tour) : Prop := e.frontier.toList = t.queue.map (·.term)

/-- The place whose term an enumerator takes out next. -/
theorem Holds.exists_queue (h : e.Holds t) {u : Term} {frontier : Frontier}
    (hp : e.frontier.pop? = some (u, frontier)) :
    ∃ x rest, t.queue = x :: rest ∧ x.term = u ∧ frontier.toList = rest.map (·.term) := by
  rw [Holds, Frontier.toList_of_pop? hp] at h
  obtain ⟨x, rest, hqueue, hu, hrest⟩ := List.map_eq_cons_iff.mp h.symm
  exact ⟨x, rest, hqueue, hu, hrest.symm⟩

/-- A visit takes the place out of the queue and puts behind it what it queues. -/
theorem Holds.visit (e : Enumerator) (fate : Fate) {x : Place} {rest : List Place}
    (hqueue : t.queue = x :: rest)
    (hlist : e.frontier.toList
      = rest.map (·.term) ++ (Visit.queued g ⟨x, fate⟩).map (·.term)) :
    e.Holds (t.visit g fate) ∧ (t.visit g fate).visits = t.visits ++ [⟨x, fate⟩] := by
  obtain ⟨visits, queue⟩ := t
  subst hqueue
  exact ⟨by rw [Holds, hlist, ← List.map_append]; rfl, rfl⟩

/-- **A turn serves a place without an outcome.** -/
theorem Holds.of_turn (h : e.Holds t) (hturn : Turn g e e') :
    ∃ x, x.term.outcome? g = none ∧ e'.Holds (t.visit g (.served e.bound))
      ∧ (t.visit g (.served e.bound)).visits = t.visits ++ [⟨x, .served e.bound⟩] := by
  cases hturn with
  | @expand u frontier terms hp hpartial hexp =>
      obtain ⟨x, rest, hqueue, rfl, hrest⟩ := h.exists_queue hp
      refine ⟨x, ?_, Holds.visit _ _ hqueue ?_⟩
      · rw [Term.outcome?_of_not_isComplete hpartial, hexp]
      · rw [toList_enqueue, ← hrest, Term.eq_choices_of_expand hexp]
        exact congrArg _ x.map_term_next.symm

theorem Holds.of_turns (h : e.Holds t) (hsound : t.Sound g s)
    (hturns : ReflTransGen (Turn g) e e') :
    ∃ t' places, e'.Holds t' ∧ t'.Sound g s ∧ outcomes g places = []
      ∧ t'.visits = t.visits ++ Visit.ofServed e.bound places ∧ e'.bound = e.bound := by
  induction hturns with
  | refl => exact ⟨t, [], h, hsound, rfl, (List.append_nil _).symm, rfl⟩
  | tail _ hturn ih =>
      obtain ⟨t', places, hholds, hsound', hnone, hvisits, hbound⟩ := ih
      obtain ⟨x, hx, hholds', hvisits'⟩ := hholds.of_turn hturn
      refine ⟨_, places ++ [x], hholds', hsound'.visit _, ?_, ?_, hturn.bound_eq.trans hbound⟩
      · rw [outcomes_concat, hnone, hx]
        rfl
      · rw [hvisits', hvisits, hbound, List.append_assoc, Visit.ofServed, Visit.ofServed,
          List.map_append]
        rfl

/-- An outcome is a program or a fault. -/
theorem Call.handed_of_outcome {c : Call} {u : Term} (h : u.outcome? g = some c.answer) :
    c.handed = [c.answer] := by
  unfold Term.outcome? at h
  unfold Call.handed
  split at h
  · rw [← Option.some.inj h]
  · split at h
    · rw [← Option.some.inj h]
    · cases h

/-- A call that comes to a place with an outcome, which it hands out, has served this place last. -/
theorem Holds.serve {x : Place} {rest places : List Place} {c : Call} (hsound : t.Sound g s)
    (hqueue : t.queue = x :: rest) (houtcome : x.term.outcome? g = some c.answer)
    (hchoices : x.term.choices g = []) (hrest : e.frontier.toList = rest.map (·.term))
    (hplaces : outcomes g places = []) :
    ∃ t' visits, e.Holds t' ∧ t'.Sound g s ∧ t'.visits = t.visits ++ visits
      ∧ c.Took g (Visit.ofServed c.bound places ++ visits) := by
  have hnext : (Visit.queued g ⟨x, .served c.bound⟩).map (·.term) = [] := by
    rw [Visit.queued, x.map_term_next, hchoices, List.filter_nil]
  obtain ⟨hholds, hvisits⟩ := Holds.visit e (.served c.bound) hqueue
    (by rw [hnext, List.append_nil, hrest])
  refine ⟨_, _, hholds, hsound.visit _, hvisits, ?_⟩
  have htook : c.Took g (Visit.ofServed c.bound (places ++ [x])) :=
    .served (by rw [outcomes_concat, hplaces, houtcome, Call.handed_of_outcome houtcome]; rfl)
  rwa [Visit.ofServed, List.map_append] at htook

/-- **An ending serves the place that has an outcome, or loses one,** unless nothing is left. -/
theorem Holds.of_ending (h : e.Holds t) (hsound : t.Sound g s) (hend : Ending g stop e answer e')
    {up : Bool} (hup : ∀ j, stop.isRaised j = true → up = true) {places : List Place}
    (hplaces : outcomes g places = []) :
    ∃ t' visits, e'.Holds t' ∧ t'.Sound g s ∧ t'.visits = t.visits ++ visits
      ∧ Call.Took g ⟨e.bound, up, answer⟩ (Visit.ofServed e.bound places ++ visits) := by
  cases hend with
  | dry _ =>
      refine ⟨t, [], h, hsound, (List.append_nil _).symm, ?_⟩
      rw [List.append_nil]
      exact .served hplaces
  | @stopped u frontier j hp hraised =>
      obtain ⟨x, rest, hqueue, rfl, hrest⟩ := h.exists_queue hp
      obtain ⟨hholds, hvisits⟩ := Holds.visit (g := g) { e with frontier } .lost hqueue
        (hrest.trans (List.append_nil _).symm)
      exact ⟨_, _, hholds, hsound.visit _, hvisits, .lost (hup j hraised) rfl hplaces⟩
  | @handed p frontier hp =>
      obtain ⟨x, rest, hqueue, hx, hrest⟩ := h.exists_queue hp
      refine Holds.serve hsound hqueue ?_ ?_ hrest hplaces
      · rw [hx, Term.outcome?_of_program]
      · rw [hx, Term.choices_of_isComplete p.complete]
  | @failed u frontier fault hp hpartial hexp =>
      obtain ⟨x, rest, hqueue, rfl, hrest⟩ := h.exists_queue hp
      obtain ⟨category, hstuck, _⟩ := Term.exists_stuckAt_of_expand hexp
      refine Holds.serve hsound hqueue ?_ hstuck.choices_eq hrest hplaces
      rw [Term.outcome?_of_not_isComplete hpartial, hexp]

/-- **What a call takes out of the frontier,** it takes in the order of a tour. -/
theorem Holds.of_next (h : e.Holds t) (hsound : t.Sound g s) {fuel : Nat} {j : Journal} {pull : Pull}
    (hnext : next g stop fuel e j = some pull) {up : Bool}
    (hup : ∀ j, stop.isRaised j = true → up = true) :
    ∃ t' haul, pull.rest.Holds t' ∧ t'.Sound g s ∧ t'.visits = t.visits ++ haul
      ∧ Call.Took g ⟨e.bound, up, pull.result⟩ haul := by
  obtain ⟨e₁, hturns, hend⟩ := next_cases hnext
  obtain ⟨t₁, places, hholds, hsound₁, hnone, hvisits, hbound⟩ := h.of_turns hsound hturns
  obtain ⟨t₂, visits, hholds₂, hsound₂, hvisits₂, htook⟩ := hholds.of_ending hsound₁ hend hup hnone
  rw [hbound] at htook
  exact ⟨t₂, _, hholds₂, hsound₂, by rw [hvisits₂, hvisits, List.append_assoc], htook⟩

/-! ## Books -/

/-- The books of an enumerator: for each call what it has taken out of the frontier, and what is
still there. -/
structure Books (g : Grammar) (s : Symbol) (calls : List Call) (e : Enumerator) (t : Tour)
    (hauls : List (List Visit)) : Prop where
  /-- Each call accounts for what it has taken. -/
  took : List.Forall₂ (Call.Took g) calls hauls
  /-- Nothing else has been taken. -/
  visits : t.visits = hauls.flatten
  /-- It has been taken in order, and what is there has been queued in order. -/
  sound : t.Sound g s
  /-- What is there is in the frontier. -/
  holds : e.Holds t

/-- **Every enumerator has books.** -/
theorem Story.exists_books {calls : List Call} (h : Story g s calls e) :
    ∃ t hauls, Books g s calls e t hauls := by
  induction h with
  | fresh => exact ⟨.start s, [], .nil, rfl, Tour.sound_start, rfl⟩
  | setBound _ _ ih =>
      obtain ⟨t, hauls, hbooks⟩ := ih
      exact ⟨t, hauls, hbooks.took, hbooks.visits, hbooks.sound, hbooks.holds⟩
  | call _ hnext hup ih =>
      obtain ⟨t, hauls, hbooks⟩ := ih
      obtain ⟨t', haul, hholds, hsound, hvisits, htook⟩ :=
        hbooks.holds.of_next hbooks.sound hnext hup
      refine ⟨t', hauls ++ [haul], ?_, ?_, hsound, hholds⟩
      · exact List.rel_append hbooks.took (.cons htook .nil)
      · rw [hvisits, hbooks.visits, List.flatten_append, List.flatten_singleton]

namespace Books

variable {calls : List Call} {hauls : List (List Visit)}

theorem outcomes_haul {c : Call} {haul : List Visit} (h : c.Took g haul) :
    outcomes g (served haul) = c.handed := by
  cases h with
  | served houtcomes => rwa [served, Visit.served?_ofServed]
  | lost _ hanswer houtcomes =>
      have hserved : ∀ (bound : Option Nat) places x,
          served (Visit.ofServed bound places ++ [⟨x, .lost⟩]) = places := fun bound places x => by
        rw [served, List.filterMap_append, Visit.served?_ofServed]
        exact List.append_nil _
      rw [hserved, houtcomes, Call.handed, hanswer]

/-- What has been handed out are the outcomes of the places served. -/
theorem outcomes_served (h : Books g s calls e t hauls) :
    outcomes g (served t.visits) = calls.flatMap Call.handed := by
  rw [h.visits]
  have htook := h.took
  clear h
  induction htook with
  | nil => rfl
  | @cons c haul calls hauls hcall _ ih =>
      rw [List.flatten_cons, served, List.filterMap_append, List.flatMap_cons, ← ih,
        ← outcomes_haul hcall]
      exact List.filterMap_append

/-- The derivations whose ends have been handed out. -/
theorem forall₂_ends (h : Books g s calls e t hauls) :
    List.Forall₂ (Ends g s) (ended g (served t.visits)) (calls.flatMap Call.handed) := by
  rw [← h.outcomes_served]
  exact forall₂_ended fun x hx => h.sound.of_served hx

/-- **They are a part of those that undisturbed calls get through.** -/
theorem exists_reference (h : Books g s calls e t hauls) :
    ∃ ds rs e', InitialSegment g s ds ∧ List.Forall₂ (Ends g s) ds rs ∧ Calls g (ofSymbol s) rs e'
      ∧ (ended g (served t.visits)).Sublist ds := by
  obtain ⟨n, hsublist⟩ := Sweep.exists_sublist_visited h.sound.pairwise_served
    fun x hx => h.sound.of_served hx
  obtain ⟨e', _, hcalls, _⟩ := exists_calls g none s n
  exact ⟨_, _, e', Sweep.initialSegment_after n, Sweep.forall₂_ended_after n, hcalls,
    (hsublist.filter _).map _⟩

/-- **Every derivation that ends has been handed out, or is cut off, or is waiting** and comes later
than all that have been handed out. -/
theorem accounts (h : Books g s calls e t hauls) {d : List Nat} {r : Except Fault (Option Program)}
    (hd : Ends g s d r) : d ∈ ended g (served t.visits) ∨ t.CutsOff g d
      ∨ t.Awaits d ∧ ∀ d' ∈ ended g (served t.visits), Earlier d' d := by
  obtain ⟨x, hx, rfl, houtcome⟩ := hd.exists_place
  rcases h.sound.served_or hx with hserved | hcut | hwaiting
  · exact Or.inl (mem_ended.mpr ⟨x, hserved, houtcome, rfl⟩)
  · exact Or.inr (Or.inl hcut)
  · refine Or.inr (Or.inr ⟨hwaiting, fun d' hd' => ?_⟩)
    obtain ⟨y, hy, _, rfl⟩ := mem_ended.mp hd'
    exact h.sound.earlier_of_awaits hy hwaiting

end Books

end Enumerator

end Sygus
