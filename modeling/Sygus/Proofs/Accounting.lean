import Sygus.Proofs.Enumeration
import Sygus.Proofs.Growth

/-!
# A pool accounts for every program

The programs that a pool can draw are those that derive from the category of its role and
fit its bound. As long as nobody raises the stop flag and nothing is wrong with the
grammar or the inputs, a pool is **steady**: each of these programs is either still to come
from the source, or of no more use, because it satisfies nothing or has the label of an
entry. De-duplication by labels therefore loses nothing, and a pool whose source is
exhausted has an entry for every label there is.

Whether an attempt to grow such a pool ends is a different question. With a program in
sight whose label is new, it does: every stir brings that program nearer, and it cannot be
spurned (`exists_grow_of_lacks`).
-/

namespace Sygus

open Relation (ReflTransGen)
open Term (Derives Met)

/-- The category of a role as a symbol. -/
def Role.symbol (role : Role) : Symbol := .nonTerminal role.category

/-- The programs that a pool of a role can draw. -/
def Role.Draws (g : Grammar) (bound : Option Nat) (role : Role) (p : Program) : Prop :=
  Derives g role.symbol p.root ∧ p.root.fits bound = true

/-- Nothing goes wrong in a role: all that is met can be expanded, and all that can be drawn
can be evaluated on all examples. -/
structure Faultless (problem : Problem) (bound : Option Nat) (role : Role) : Prop where
  expand : ∀ t, Met problem.grammar bound role.symbol t →
    ∃ results, t.expand problem.grammar = .ok results
  label : ∀ p, role.Draws problem.grammar bound p → ∃ s, role.label p problem.examples = .ok s

variable {problem : Problem} {bound : Option Nat} {role : Role}

namespace Pool

/-- Every program is still to come or of no more use, and nothing else has been taken in. -/
structure Steady (problem : Problem) (bound : Option Nat) (role : Role) (p : Pool) : Prop where
  role_eq : p.role = role
  bound_eq : p.source.bound = bound
  /-- The source walks from the category of the role. -/
  met : ∀ t ∈ p.source.frontier.toList, Met problem.grammar bound role.symbol t
  /-- The entries can be drawn, and their labels are their own. -/
  entries : ∀ e ∈ p.entries, role.Draws problem.grammar bound e.piece
    ∧ role.label e.piece problem.examples = .ok e.label
  /-- No label is empty. -/
  nonempty : ∀ e ∈ p.entries, e.label ≠ []
  /-- No two entries have the same label. -/
  distinct : (p.entries.map (·.label)).Nodup
  /-- Nothing is lost. -/
  accounted : ∀ program, role.Draws problem.grammar bound program →
    p.source.Pending problem.grammar program.root
      ∨ ∃ s, role.label program problem.examples = .ok s ∧ p.Spurns s
  /-- The tally of examples is right. -/
  tallied : p.Tallied

theorem steady_fresh (problem : Problem) (bound : Option Nat) (role : Role) :
    (fresh role bound).Steady problem bound role where
  role_eq := rfl
  bound_eq := rfl
  met := by
    intro t ht
    rw [List.mem_singleton.mp ht]
    exact .start
  entries := by simp [fresh]
  nonempty := by simp [fresh]
  distinct := by simp [fresh]
  accounted := fun program hp => Or.inl (Enumerator.pending_ofSymbol hp.1 bound)
  tallied := tallied_fresh role bound

/-- When a program is taken out of the frontier, all others stay accounted for. -/
theorem Steady.pending_of_pop? {p : Pool} {program q : Program} {frontier : Frontier}
    (hp : p.source.frontier.pop? = some (program.root, frontier))
    (hq : p.source.Pending problem.grammar q.root) :
    q = program
      ∨ (p.withSource { p.source with frontier }).source.Pending problem.grammar q.root := by
  obtain ⟨n, i, hdue⟩ := hq
  rcases Enumerator.due_of_pop? hp hdue with heq | ⟨k, _, hdue'⟩
  · exact Or.inl (Program.eq_of_root heq)
  · exact Or.inr ⟨n, k, hdue'⟩

/-- **Stirring keeps a pool steady.** -/
theorem Steady.stir {p p' : Pool} (h : p.Steady problem bound role) (hs : Stir problem p p') :
    p'.Steady problem bound role := by
  cases hs with
  | @turn e hturn =>
      have hbound : e.bound = bound := hturn.bound_eq.trans h.bound_eq
      refine ⟨h.role_eq, hbound, ?_, h.entries, h.nonempty, h.distinct, ?_, h.tallied.withSource e⟩
      · have hmet := hturn.met (by rw [h.bound_eq]; exact h.met)
        rwa [hbound] at hmet
      · intro program hdraws
        rcases h.accounted program hdraws with ⟨n, i, hdue⟩ | hspurned
        · -- what was due before the turn is due after it
          obtain ⟨m, k, _, hdue'⟩ := hturn.due (by rw [h.bound_eq]; exact hdraws.2) hdue
          exact Or.inl ⟨m, k, hdue'⟩
        · exact Or.inr hspurned
  | @spurn program frontier s hp hlabel hspurned =>
      have hmet := h.met
      rw [Frontier.toList_of_pop? hp, List.forall_mem_cons] at hmet
      refine ⟨h.role_eq, h.bound_eq, hmet.2, h.entries, h.nonempty, h.distinct, ?_,
        h.tallied.withSource _⟩
      intro q hdraws
      rcases h.accounted q hdraws with hpending | hq
      · rcases Steady.pending_of_pop? hp hpending with rfl | hpending'
        · exact Or.inr ⟨s, by rw [← h.role_eq]; exact hlabel, hspurned⟩
        · exact Or.inl hpending'
      · exact Or.inr hq

theorem Steady.stirs {p p' : Pool} (h : p.Steady problem bound role)
    (hs : ReflTransGen (Stir problem) p p') : p'.Steady problem bound role := by
  induction hs with
  | refl => exact h
  | tail _ hstir ih => exact ih.stir hstir

/-- A program at the head of the frontier can be drawn. -/
theorem Steady.draws {p : Pool} (h : p.Steady problem bound role) {program : Program}
    {frontier : Frontier} (hp : p.source.frontier.pop? = some (program.root, frontier)) :
    role.Draws problem.grammar bound program := by
  have hmet := h.met program.root (Frontier.mem_of_pop? hp)
  exact ⟨hmet.derives_of_isComplete program.complete, hmet.fits_of_isComplete program.complete⟩

/-- Taking in a program with a new label keeps a pool steady. -/
theorem Steady.take {p : Pool} (h : p.Steady problem bound role) {program : Program}
    {frontier : Frontier} {s : ExampleSet}
    (hp : p.source.frontier.pop? = some (program.root, frontier))
    (hlabel : p.role.label program problem.examples = .ok s) (hnew : ¬ p.Spurns s) :
    ((p.withSource { p.source with frontier }).take program s).Steady problem bound role := by
  have hmet := h.met
  rw [Frontier.toList_of_pop? hp, List.forall_mem_cons] at hmet
  rw [h.role_eq] at hlabel
  refine ⟨h.role_eq, h.bound_eq, hmet.2, ?_, nonempty_take h.nonempty hnew program,
    distinct_take h.distinct hnew program, ?_, (h.tallied.withSource _).take program s⟩
  · intro e he
    rcases List.mem_append.mp he with he | he
    · exact h.entries e he
    · rw [List.mem_singleton.mp he]
      exact ⟨h.draws hp, hlabel⟩
  · intro q hdraws
    rcases h.accounted q hdraws with hpending | ⟨s', hs', hspurned⟩
    · rcases Steady.pending_of_pop? hp hpending with rfl | hpending'
      · exact Or.inr ⟨s, hlabel, Or.inr ⟨⟨q, s⟩, List.mem_append_right _ (by simp), rfl⟩⟩
      · exact Or.inl hpending'
    · exact Or.inr ⟨s', hs', hspurned.take program⟩

/-- The source has nothing more to give. -/
def Dry (p : Pool) : Prop := p.source.frontier.toList = []

/-- **What an undisturbed attempt does to a steady pool.** It takes in one entry, or it finds
the source exhausted and changes no entry; either way the pool stays steady. -/
theorem Steady.grow {p : Pool} (h : p.Steady problem bound role)
    (hf : Faultless problem bound role) {fuel : Nat} {j : Journal} {g : Growth}
    (hg : p.grow problem .never fuel j = some g) :
    g.pool.Steady problem bound role
      ∧ ((g.grew = .ok true ∧ g.pool.entries.length = p.entries.length + 1)
        ∨ (g.grew = .ok false ∧ g.pool.Dry ∧ g.pool.entries = p.entries)) := by
  obtain ⟨p', hstirs, hend⟩ := grow_cases hg
  have hp' := h.stirs hstirs
  have hentries := stirs_entries_eq hstirs
  generalize g.grew = grew, g.pool = pool at hend
  cases hend with
  | dry hdry => exact ⟨hp', Or.inr ⟨rfl, hdry, hentries⟩⟩
  | stopped hraised => simp [Stop.isRaised] at hraised
  | took hp hlabel hnew =>
      exact ⟨hp'.take hp hlabel hnew, Or.inl ⟨rfl, by simp [Pool.take, hentries]⟩⟩
  | @unexpandable t _ _ hp _ hexp =>
      -- faultless problems leave no other endings
      have hmet := hp'.met t (Frontier.mem_of_pop? hp)
      obtain ⟨results, hresults⟩ := hf.expand t hmet
      rw [hresults] at hexp
      exact absurd hexp (by simp)
  | unlabelled hp hlabel =>
      obtain ⟨s, hs⟩ := hf.label _ (hp'.draws hp)
      rw [hp'.role_eq, hs] at hlabel
      exact absurd hlabel (by simp)

/-- An exhausted pool has every label that is not empty. -/
theorem Steady.spurns_of_dry {p : Pool} (h : p.Steady problem bound role) (hdry : p.Dry)
    {program : Program} (hp : role.Draws problem.grammar bound program) {s : ExampleSet}
    (hs : role.label program problem.examples = .ok s) : p.Spurns s := by
  rcases h.accounted program hp with ⟨n, i, u, hu, _⟩ | ⟨s', hs', hspurned⟩
  · rw [hdry] at hu
    simp at hu
  · rw [hs] at hs'
    cases hs'
    exact hspurned

/-- A steady pool covers the examples if each of them is in some label. -/
theorem Steady.covers_iff {p : Pool} (h : p.Steady problem bound role) :
    p.covers problem.examples.length = true
      ↔ ∀ i < problem.examples.length, ∃ e ∈ p.entries, i ∈ e.label :=
  h.tallied.covers_iff fun e he _ hi => Role.lt_of_mem_label (h.entries e he).2 hi

/-- With more entries no less is covered. -/
theorem Steady.covers_of_subset {p p' : Pool} (h : p.Steady problem bound role)
    (h' : p'.Steady problem bound role) (hsub : p.entries ⊆ p'.entries)
    (hcovers : p.covers problem.examples.length = true) :
    p'.covers problem.examples.length = true := by
  rw [h'.covers_iff]
  intro i hi
  obtain ⟨e, he, hie⟩ := h.covers_iff.mp hcovers i hi
  exact ⟨e, hsub he, hie⟩

/-- There is no room for more entries than there are labels. -/
theorem Steady.length_entries_le {p : Pool} (h : p.Steady problem bound role) :
    p.entries.length ≤ 2 ^ problem.examples.length := by
  have := Role.length_labels_le h.distinct (n := problem.examples.length) ?_
  · rwa [List.length_map] at this
  · intro s hs
    obtain ⟨e, he, rfl⟩ := List.mem_map.mp hs
    exact Role.label_sublist (h.entries e he).2

/-! ## Growing towards a program in sight -/

/-- A program can be drawn whose label the pool does not have. -/
def Lacks (problem : Problem) (bound : Option Nat) (role : Role) (p : Pool) : Prop :=
  ∃ program s, role.Draws problem.grammar bound program
    ∧ role.label program problem.examples = .ok s ∧ ¬ p.Spurns s

/-- Stirring ends if a program with a new label is due, by induction on how near it is. -/
theorem acc_stir_of_due {q : Program} {s : ExampleSet} (hs : role.label q problem.examples = .ok s)
    (hfits : q.root.fits bound = true) (ni : Nat × Nat) {p : Pool}
    (hrole : p.role = role) (hbound : p.source.bound = bound) (hnew : ¬ p.Spurns s)
    (hdue : p.source.Due problem.grammar q.root ni.1 ni.2) :
    Acc (fun a b => Stir problem b a) p := by
  induction ni using Enumerator.wellFounded_nearer.induction generalizing p with
  | _ ni ih =>
      refine Acc.intro _ ?_
      intro p' hstir
      cases hstir with
      | @turn e hturn =>
          obtain ⟨m, k, hlt, hdue'⟩ := hturn.due (by rw [hbound]; exact hfits) hdue
          exact ih (m, k) hlt (p := p.withSource e) hrole (hturn.bound_eq.trans hbound) hnew hdue'
      | @spurn program frontier s' hp hlabel hspurned =>
          rcases Enumerator.due_of_pop? hp hdue with heq | ⟨k, hk, hdue'⟩
          · -- the program itself would have been spurned, but its label is new
            have hqp : q = program := Program.eq_of_root heq
            rw [hrole, ← hqp, hs] at hlabel
            cases hlabel
            exact absurd hspurned hnew
          · exact ih (ni.1, k) (.right _ hk) hrole hbound hnew hdue'

/-- **A pool that lacks a label grows.** -/
theorem Steady.exists_grow_of_lacks {p : Pool} (h : p.Steady problem bound role)
    (hf : Faultless problem bound role) (hlacks : p.Lacks problem bound role) (j : Journal) :
    ∃ fuel g, p.grow problem .never fuel j = some g ∧ g.grew = .ok true := by
  obtain ⟨q, s, hdraws, hs, hnew⟩ := hlacks
  have hpending : p.source.Pending problem.grammar q.root := by
    rcases h.accounted q hdraws with hpending | ⟨s', hs', hspurned⟩
    · exact hpending
    · rw [hs] at hs'
      cases hs'
      exact absurd hspurned hnew
  -- so many stirs at most are left until the program is at the head
  obtain ⟨n, i, hdue⟩ := hpending
  have hacc := acc_stir_of_due hs hdraws.2 (n, i) h.role_eq h.bound_eq hnew hdue
  obtain ⟨fuel, g, hg⟩ : ∃ fuel g, p.grow problem .never fuel j = some g := exists_grow hacc j
  refine ⟨fuel, g, hg, ?_⟩
  obtain ⟨hsteady, ⟨hgrew, _⟩ | ⟨_, hdry, hentries⟩⟩ := h.grow hf hg
  · exact hgrew
  · have hspurned := hsteady.spurns_of_dry hdry hdraws hs
    unfold Spurns at hspurned hnew
    rw [hentries] at hspurned
    exact absurd hspurned hnew

end Pool

end Sygus
