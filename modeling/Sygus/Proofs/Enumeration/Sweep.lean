import Mathlib.Data.List.Induction
import Mathlib.Data.List.Shortlex
import Mathlib.Logic.Function.Iterate
import Sygus.Proofs.Choices
import Sygus.Proofs.Enumeration

/-!
# Sweeping the tree of derivations

The derivations from a symbol form a tree. A **place** in it is a list of choices with the
term that they lead to, and the places below it make one more choice. A **sweep** visits
places first in, first out, and queues the places below each of them.

What has been queued so far is the root and the places below those visited, in the order of the
visits. This alone puts the visits in order: by the number of choices, and for the same number by
the choices themselves. Nothing is left out: whatever comes before a visited place has been
visited, and every place is visited at some time.
-/

namespace Sygus

open Term (Expands follow)

/-- Fewer choices come before more of them, and of as many the ones that are less where they first
differ. -/
def Earlier (a b : List Nat) : Prop := List.Shortlex (· < ·) a b

namespace Earlier

variable {a b : List Nat} {i j : Nat}

theorem nil_concat : Earlier [] (a ++ [i]) := .of_length_lt (by simp)

theorem not_nil : ¬ Earlier a [] := List.not_shortlex_nil_right

theorem asymm (h : Earlier a b) : ¬ Earlier b a :=
  Std.Asymm.asymm (r := List.Shortlex (· < ·)) a b h

theorem concat_of_lt (h : i < j) : Earlier (a ++ [i]) (a ++ [j]) :=
  .append_left ((List.shortlex_singleton_iff i j).mpr h) a

theorem lex_concat {a b : List Nat} (h : List.Lex (· < ·) a b) (hlength : a.length = b.length) :
    List.Lex (· < ·) (a ++ [i]) (b ++ [j]) := by
  induction h with
  | nil => cases hlength
  | cons _ ih => exact .cons (ih (Nat.succ.inj hlength))
  | rel hlt => exact .rel hlt

theorem lex_of_concat (h : List.Lex (· < ·) (a ++ [i]) (b ++ [j])) (hlength : a.length = b.length) :
    List.Lex (· < ·) a b ∨ a = b := by
  induction a generalizing b with
  | nil => exact Or.inr (List.length_eq_zero_iff.mp hlength.symm).symm
  | cons x a ih =>
      cases b with
      | nil => cases hlength
      | cons y b =>
          cases h with
          | rel hlt => exact Or.inl (.rel hlt)
          | cons h =>
              rcases ih h (Nat.succ.inj hlength) with hlex | rfl
              · exact Or.inl (.cons hlex)
              · exact Or.inr rfl

/-- One more choice on either side keeps the order. -/
theorem concat (h : Earlier a b) : Earlier (a ++ [i]) (b ++ [j]) := by
  rcases List.shortlex_def.mp h with hlength | ⟨hlength, hlex⟩
  · exact .of_length_lt (by simpa using hlength)
  · exact .of_lex (by simpa using hlength) (lex_concat hlex hlength)

/-- One choice less on either side keeps the order, unless the rest is the same. -/
theorem of_concat (h : Earlier (a ++ [i]) (b ++ [j])) : Earlier a b ∨ a = b := by
  rcases List.shortlex_def.mp h with hlength | ⟨hlength, hlex⟩
  · exact Or.inl (.of_length_lt (by simpa using hlength))
  · have hlength' : a.length = b.length := by simpa using hlength
    exact (lex_of_concat hlex hlength').imp_left (.of_lex hlength')

end Earlier

/-- A place in the tree of derivations. -/
structure Place where
  /-- The number of the production chosen, for each step. -/
  picks : List Nat
  /-- The term that the choices lead to. -/
  term : Term
  deriving DecidableEq

variable {g : Grammar} {bound : Option Nat} {s : Symbol}

namespace Place

/-- Where no choice has been made. -/
def root (s : Symbol) : Place := ⟨[], .leaf s⟩

/-- The places with one more choice, as far as their terms fit the bound. -/
def next (g : Grammar) (bound : Option Nat) (x : Place) : List Place :=
  ((x.term.choices g).mapIdx fun i u => ⟨x.picks ++ [i], u⟩).filter (·.term.fits bound)

theorem mem_next {x y : Place} : y ∈ x.next g bound
    ↔ ∃ i u, (x.term.choices g)[i]? = some u ∧ u.fits bound = true ∧ y = ⟨x.picks ++ [i], u⟩ := by
  rw [next, List.mem_filter, List.mem_iff_getElem?]
  refine ⟨?_, ?_⟩
  · rintro ⟨⟨i, hi⟩, hfits⟩
    rw [List.getElem?_mapIdx, Option.map_eq_some_iff] at hi
    obtain ⟨u, hu, rfl⟩ := hi
    exact ⟨i, u, hu, hfits, rfl⟩
  · rintro ⟨i, u, hu, hfits, rfl⟩
    exact ⟨⟨i, by rw [List.getElem?_mapIdx, hu]; rfl⟩, hfits⟩

theorem map_term_next (x : Place) :
    (x.next g bound).map (·.term) = (x.term.choices g).filter (·.fits bound) := by
  have hterms : ((x.term.choices g).mapIdx fun i u => (⟨x.picks ++ [i], u⟩ : Place)).map (·.term)
      = x.term.choices g := List.ext_getElem (by simp) (by simp)
  conv_rhs => rw [← hterms, List.filter_map]
  rfl

theorem pairwise_next (x : Place) :
    (x.next g bound).Pairwise fun y z => Earlier y.picks z.picks := by
  refine List.Pairwise.filter _ ?_
  rw [List.pairwise_iff_getElem]
  intro i j hi hj hlt
  rw [List.getElem_mapIdx, List.getElem_mapIdx]
  exact .concat_of_lt hlt

/-- **What is below a place comes after whatever is below the places before it.** -/
theorem pairwise_append_next {queued : List Place} {x : Place}
    (hsorted : queued.Pairwise fun y z => Earlier y.picks z.picks)
    (habove : ∀ y ∈ queued, y.picks = [] ∨ ∃ picks i, Earlier picks x.picks ∧ y.picks = picks ++ [i]) :
    (queued ++ x.next g bound).Pairwise fun y z => Earlier y.picks z.picks := by
  refine List.pairwise_append.mpr ⟨hsorted, x.pairwise_next, ?_⟩
  intro y hy z hz
  obtain ⟨i, u, _, _, rfl⟩ := mem_next.mp hz
  rcases habove y hy with hroot | ⟨picks, j, hearlier, hbelow⟩
  · rw [hroot]
    exact .nil_concat
  · rw [hbelow]
    exact hearlier.concat

/-- The places of the tree that a bound leaves. -/
inductive Of (g : Grammar) (bound : Option Nat) (s : Symbol) : Place → Prop where
  | root : Of g bound s (root s)
  | next {x y : Place} : Of g bound s x → y ∈ x.next g bound → Of g bound s y

theorem Of.follow_eq {x : Place} (h : Of g bound s x) :
    (Term.leaf s).follow g x.picks = some x.term := by
  induction h with
  | root => rfl
  | next _ hy ih =>
      obtain ⟨i, u, hu, _, rfl⟩ := mem_next.mp hy
      rw [Term.follow_concat, ih]
      exact hu

/-- A place is known by its choices. -/
theorem Of.eq_of_picks {x y : Place} (hx : Of g bound s x) (hy : Of g bound s y)
    (h : x.picks = y.picks) : x = y := by
  obtain ⟨picks, t⟩ := x
  obtain ⟨picks', t'⟩ := y
  cases h
  have hterm := hx.follow_eq.symm.trans hy.follow_eq
  cases hterm
  rfl

theorem Of.met {x : Place} (h : Of g bound s x) : x.term.Met g bound s := by
  induction h with
  | root => exact .start
  | next _ hy ih =>
      obtain ⟨i, u, hu, hfits, rfl⟩ := mem_next.mp hy
      exact .step ih (Term.mem_choices_iff.mp (List.mem_of_getElem? hu)) hfits

/-- Without a bound, all choices that can be made lead to a place. -/
theorem of_follow {picks : List Nat} {t : Term} (h : (Term.leaf s).follow g picks = some t) :
    Of g none s ⟨picks, t⟩ := by
  induction picks using List.reverseRecOn generalizing t with
  | nil =>
      cases h
      exact .root
  | append_singleton picks i ih =>
      rw [Term.follow_concat, Option.bind_eq_some_iff] at h
      obtain ⟨u, hu, ht⟩ := h
      exact .next (ih hu) (mem_next.mpr ⟨i, t, ht, rfl, rfl⟩)

end Place

/-- A sweep under way. -/
structure Sweep where
  visited : List Place
  queue : List Place

namespace Sweep

open Place (root next Of)

/-- A sweep that has not begun. -/
def start (s : Symbol) : Sweep := ⟨[], [root s]⟩

/-- Visits the next place, if there is one. -/
def step (g : Grammar) (bound : Option Nat) (w : Sweep) : Sweep :=
  match w.queue with
  | [] => w
  | x :: rest => ⟨w.visited ++ [x], rest ++ x.next g bound⟩

/-- A sweep after so many visits. -/
def after (g : Grammar) (bound : Option Nat) (s : Symbol) (n : Nat) : Sweep :=
  (step g bound)^[n] (start s)

theorem after_succ (n : Nat) : after g bound s (n + 1) = (after g bound s n).step g bound :=
  Function.iterate_succ_apply' _ _ _

/-- A sweep with an empty queue is over. -/
theorem step_eq_self {w : Sweep} (h : w.queue = []) : w.step g bound = w := by
  obtain ⟨visited, queue⟩ := w
  cases h
  rfl

/-- What is so at all times of a sweep. -/
structure Sound (g : Grammar) (bound : Option Nat) (s : Symbol) (w : Sweep) : Prop where
  /-- What has been queued is the root and what is below the places visited. -/
  queued : w.visited ++ w.queue = root s :: w.visited.flatMap (next g bound)
  /-- It has been queued in order. -/
  sorted : (w.visited ++ w.queue).Pairwise fun x y => Earlier x.picks y.picks
  /-- It consists of places of the tree. -/
  places : ∀ x ∈ w.visited ++ w.queue, Of g bound s x

theorem sound_start : (start s).Sound g bound s where
  queued := rfl
  sorted := List.pairwise_singleton _ _
  places x hx := by
    cases List.mem_singleton.mp hx
    exact .root

/-- **A visit keeps the order.** What is below the place visited comes after all that is below
places visited before. -/
theorem Sound.step {w : Sweep} (h : w.Sound g bound s) : (w.step g bound).Sound g bound s := by
  obtain ⟨visited, queue⟩ := w
  cases queue with
  | nil => exact h
  | cons x rest =>
      have hlist : (visited ++ [x]) ++ (rest ++ x.next g bound)
          = (visited ++ x :: rest) ++ x.next g bound := by simp
      have hx : x ∈ visited ++ x :: rest := List.mem_append_right _ List.mem_cons_self
      refine ⟨?_, ?_, ?_⟩
      · show (visited ++ [x]) ++ (rest ++ x.next g bound) = _
        rw [hlist, h.queued]
        simp [Sweep.step]
      · show ((visited ++ [x]) ++ (rest ++ x.next g bound)).Pairwise _
        rw [hlist]
        refine Place.pairwise_append_next h.sorted fun y hy => ?_
        have hy' := h.queued ▸ hy
        rcases List.mem_cons.mp hy' with rfl | hy'
        · exact Or.inl rfl
        · obtain ⟨v, hv, hyv⟩ := List.mem_flatMap.mp hy'
          obtain ⟨j, _, _, _, rfl⟩ := Place.mem_next.mp hyv
          exact Or.inr ⟨v.picks, j,
            (List.pairwise_append.mp h.sorted).2.2 v hv x List.mem_cons_self, rfl⟩
      · show ∀ y ∈ (visited ++ [x]) ++ (rest ++ x.next g bound), _
        rw [hlist, List.forall_mem_append]
        exact ⟨h.places, fun y hy => .next (h.places x hx) hy⟩

theorem sound_after (n : Nat) : (after g bound s n).Sound g bound s := by
  induction n with
  | zero => exact sound_start
  | succ n ih =>
      rw [after_succ]
      exact ih.step

theorem pairwise_visited (n : Nat) :
    (after g bound s n).visited.Pairwise fun x y => Earlier x.picks y.picks :=
  (List.pairwise_append.mp (sound_after n).sorted).1

theorem of_mem_visited {n : Nat} {x : Place} (h : x ∈ (after g bound s n).visited) :
    Of g bound s x :=
  (sound_after n).places x (List.mem_append_left _ h)

/-- What is still in the queue comes later than what has been visited. -/
theorem Sound.mem_visited_of_queued {w : Sweep} {x y : Place} (h : w.Sound g bound s)
    (hy : y ∈ root s :: w.visited.flatMap (next g bound)) (hx : x ∈ w.visited)
    (hearlier : Earlier y.picks x.picks) : y ∈ w.visited := by
  rw [← h.queued] at hy
  rcases List.mem_append.mp hy with hvisited | hwaiting
  · exact hvisited
  · exact absurd hearlier ((List.pairwise_append.mp h.sorted).2.2 x hx y hwaiting).asymm

/-- **Whatever comes before a visited place has been visited.** -/
theorem Sound.mem_visited_of_earlier {w : Sweep} {x y : Place} (h : w.Sound g bound s)
    (hy : Of g bound s y) (hx : x ∈ w.visited) (hearlier : Earlier y.picks x.picks) :
    y ∈ w.visited := by
  induction hy generalizing x with
  | root => exact h.mem_visited_of_queued List.mem_cons_self hx hearlier
  | @next v y hv hy ih =>
      refine h.mem_visited_of_queued (List.mem_cons_of_mem _ (List.mem_flatMap.mpr ⟨v, ?_, hy⟩)) hx
        hearlier
      -- the place above `y` comes before the one above `x`, or is the same
      have hxqueued := h.queued ▸ List.mem_append_left w.queue hx
      obtain ⟨i, _, _, _, rfl⟩ := Place.mem_next.mp hy
      rcases List.mem_cons.mp hxqueued with rfl | hxqueued
      · exact absurd hearlier Earlier.not_nil
      · obtain ⟨v', hv', hx'⟩ := List.mem_flatMap.mp hxqueued
        obtain ⟨j, _, _, _, rfl⟩ := Place.mem_next.mp hx'
        rcases hearlier.of_concat with habove | heq
        · exact ih hv' habove
        · rwa [hv.eq_of_picks (h.places v' (List.mem_append_left _ hv')) heq]

/-- Visits are not undone. -/
theorem visited_prefix_step (w : Sweep) : w.visited <+: (w.step g bound).visited := by
  obtain ⟨visited, queue⟩ := w
  cases queue with
  | nil => exact List.prefix_refl _
  | cons x rest => exact List.prefix_append _ _

theorem visited_prefix_iterate (w : Sweep) (n : Nat) :
    w.visited <+: ((step g bound)^[n] w).visited := by
  induction n with
  | zero => exact List.prefix_refl _
  | succ n ih =>
      rw [Function.iterate_succ_apply']
      exact ih.trans (visited_prefix_step _)

theorem visited_prefix_after {m n : Nat} (h : m ≤ n) :
    (after g bound s m).visited <+: (after g bound s n).visited := by
  obtain ⟨k, rfl⟩ := Nat.exists_eq_add_of_le' h
  unfold after
  rw [Function.iterate_add_apply]
  exact visited_prefix_iterate _ k

/-- What is in the queue is visited when its turn comes. -/
theorem mem_visited_of_queue {w : Sweep} {x : Place} {i : Nat} (h : w.queue[i]? = some x) :
    x ∈ ((step g bound)^[i + 1] w).visited := by
  induction i generalizing w with
  | zero =>
      obtain ⟨visited, queue⟩ := w
      cases queue with
      | nil => cases h
      | cons y rest =>
          cases h
          exact List.mem_append_right _ List.mem_cons_self
  | succ i ih =>
      obtain ⟨visited, queue⟩ := w
      cases queue with
      | nil => cases h
      | cons y rest =>
          rw [Function.iterate_succ_apply]
          refine ih ?_
          rw [List.getElem?_cons_succ] at h
          show (rest ++ y.next g bound)[i]? = some x
          rw [List.getElem?_append_left (List.getElem?_eq_some_iff.mp h).1, h]

/-- **Every place is visited at some time.** -/
theorem exists_mem_visited {x : Place} (h : Of g bound s x) :
    ∃ n, x ∈ (after g bound s n).visited := by
  induction h with
  | root => exact ⟨1, List.mem_cons_self⟩
  | @next v x _ hx ih =>
      obtain ⟨n, hn⟩ := ih
      have hqueued : x ∈ root s :: (after g bound s n).visited.flatMap (next g bound) :=
        List.mem_cons_of_mem _ (List.mem_flatMap.mpr ⟨v, hn, hx⟩)
      rw [← (sound_after n).queued] at hqueued
      rcases List.mem_append.mp hqueued with hvisited | hwaiting
      · exact ⟨n, hvisited⟩
      · obtain ⟨i, hi⟩ := List.mem_iff_getElem?.mp hwaiting
        refine ⟨i + 1 + n, ?_⟩
        unfold after
        rw [Function.iterate_add_apply]
        exact mem_visited_of_queue hi

/-- When the queue is empty, no more places are visited. -/
theorem visited_prefix_of_queue_nil {n : Nat} (hempty : (after g bound s n).queue = []) (m : Nat) :
    (after g bound s m).visited <+: (after g bound s n).visited := by
  rcases Nat.le_total m n with hle | hle
  · exact visited_prefix_after hle
  · obtain ⟨k, rfl⟩ := Nat.exists_eq_add_of_le' hle
    have hfixed : after g bound s (k + n) = after g bound s n := by
      unfold after at hempty ⊢
      rw [Function.iterate_add_apply, Function.iterate_fixed (step_eq_self hempty)]
    exact hfixed.symm ▸ List.prefix_refl _

/-- **When the queue is empty, every place has been visited.** -/
theorem mem_visited_of_queue_nil {x : Place} {n : Nat} (hempty : (after g bound s n).queue = [])
    (hx : Of g bound s x) : x ∈ (after g bound s n).visited := by
  obtain ⟨m, hm⟩ := exists_mem_visited hx
  exact (visited_prefix_of_queue_nil hempty m).subset hm

end Sweep

end Sygus
