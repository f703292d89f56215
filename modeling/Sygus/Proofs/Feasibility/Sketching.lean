import Sygus.Feasibility.Sketch
import Sygus.Proofs.Evaluation
import Sygus.Proofs.Leftmost

/-!
# Sketches of leftmost terms

A complete term has a **closed** sketch, without unknowns, and a term without children has
one without operands; both kinds are **plain**. Of two operands of a leftmost term one has
a plain sketch. What matters of this is that sums and equations do, and a sketch in which
they do is called **thin**.

The traversal that computes a sketch and numbers its unknowns is opened in `intSketched_of_eq`
and, for the other direction, in `IntSketched.intSketch_eq`; later proofs go by cases on
`IntSketched` and `BoolSketched`.
-/

namespace Sygus

/-! ## Sketching as a relation -/

mutual

/-- The term has this sketch where an integer is wanted; the unknowns take the numbers from the
first numbering up to the second. -/
inductive IntSketched : Numbering → Term → IntSketch → Numbering → Prop where
  | hole {n : Numbering} {category : String} {cs : List Term} :
      IntSketched n (.node (.nonTerminal category) cs) (.unknown n.ints) { n with ints := n.ints + 1 }
  | ite {n n₁ n₂ n₃ : Numbering} {name : String} {c t e : Term} {c' : BoolSketch}
      {t' e' : IntSketch} : IntOp.ofName? name = some .ite → BoolSketched n c c' n₁ →
      IntSketched n₁ t t' n₂ → IntSketched n₂ e e' n₃ →
      IntSketched n (.node (.terminal name) [c, t, e]) (.ite c' t' e') n₃
  | add {n n₁ n₂ : Numbering} {name : String} {l r : Term} {l' r' : IntSketch} :
      IntOp.ofName? name = some .add → IntSketched n l l' n₁ → IntSketched n₁ r r' n₂ →
      IntSketched n (.node (.terminal name) [l, r]) (.add l' r') n₂
  | multiply {n n₁ n₂ : Numbering} {name : String} {l r : Term} {l' r' : IntSketch} :
      IntOp.ofName? name = some .multiply → IntSketched n l l' n₁ → IntSketched n₁ r r' n₂ →
      IntSketched n (.node (.terminal name) [l, r]) (.multiply l' r') n₂
  | var {n : Numbering} {name : String} {args : List Term} {v : Variable} :
      IntOp.ofName? name = some (.var v) →
      IntSketched n (.node (.terminal name) args) (.var v) n
  | literal {n : Numbering} {name : String} {args : List Term} {value : Nat} :
      IntOp.ofName? name = some (.literal value) →
      IntSketched n (.node (.terminal name) args) (.literal value) n

/-- The same where a truth value is wanted. -/
inductive BoolSketched : Numbering → Term → BoolSketch → Numbering → Prop where
  | hole {n : Numbering} {category : String} {cs : List Term} :
      BoolSketched n (.node (.nonTerminal category) cs) (.unknown n.bools)
        { n with bools := n.bools + 1 }
  | lt {n n₁ n₂ : Numbering} {name : String} {l r : Term} {l' r' : IntSketch} :
      BoolOp.ofName? name = some .lt → IntSketched n l l' n₁ → IntSketched n₁ r r' n₂ →
      BoolSketched n (.node (.terminal name) [l, r]) (.lt l' r') n₂
  | eq {n n₁ n₂ : Numbering} {name : String} {l r : Term} {l' r' : IntSketch} :
      BoolOp.ofName? name = some .eq → IntSketched n l l' n₁ → IntSketched n₁ r r' n₂ →
      BoolSketched n (.node (.terminal name) [l, r]) (.eq l' r') n₂
  | and {n n₁ n₂ : Numbering} {name : String} {l r : Term} {l' r' : BoolSketch} :
      BoolOp.ofName? name = some .and → BoolSketched n l l' n₁ → BoolSketched n₁ r r' n₂ →
      BoolSketched n (.node (.terminal name) [l, r]) (.and l' r') n₂
  | or {n n₁ n₂ : Numbering} {name : String} {l r : Term} {l' r' : BoolSketch} :
      BoolOp.ofName? name = some .or → BoolSketched n l l' n₁ → BoolSketched n₁ r r' n₂ →
      BoolSketched n (.node (.terminal name) [l, r]) (.or l' r') n₂
  | not {n n₁ : Numbering} {name : String} {b : Term} {b' : BoolSketch} :
      BoolOp.ofName? name = some .not → BoolSketched n b b' n₁ →
      BoolSketched n (.node (.terminal name) [b]) (.not b') n₁

end

/-- A sequence of two traversals succeeds if both do. -/
theorem run_bind_eq_ok {α β : Type} {x : StateT Numbering (Except Fault) α}
    {f : α → StateT Numbering (Except Fault) β} {n : Numbering} {r : β × Numbering} :
    (x >>= f) n = .ok r ↔ ∃ a m, x n = .ok (a, m) ∧ f a m = .ok r := by
  show (x n >>= fun p => f p.1 p.2) = .ok r ↔ _
  rw [bind_eq_ok]
  refine ⟨?_, ?_⟩
  · intro hexists
    obtain ⟨⟨a, m⟩, hx, hf⟩ := hexists
    exact ⟨a, m, hx, hf⟩
  · intro hexists
    obtain ⟨a, m, hx, hf⟩ := hexists
    exact ⟨⟨a, m⟩, hx, hf⟩

/-- A traversal of one child, of two and of three children. -/
theorem run_one_eq_ok {α β : Type} {x : StateT Numbering (Except Fault) α} {f : α → β}
    {n n' : Numbering} {s : β} :
    (do return f (← x) : StateT Numbering (Except Fault) β) n = .ok (s, n')
      ↔ ∃ a, x n = .ok (a, n') ∧ s = f a := by
  rw [run_bind_eq_ok]
  refine ⟨?_, ?_⟩
  · intro hexists
    obtain ⟨a, m, hx, hf⟩ := hexists
    cases hf
    exact ⟨a, hx, rfl⟩
  · intro hexists
    obtain ⟨a, hx, rfl⟩ := hexists
    exact ⟨a, n', hx, rfl⟩

theorem run_two_eq_ok {α β γ : Type} {x : StateT Numbering (Except Fault) α}
    {y : StateT Numbering (Except Fault) β} {f : α → β → γ} {n n' : Numbering} {s : γ} :
    (do return f (← x) (← y) : StateT Numbering (Except Fault) γ) n = .ok (s, n')
      ↔ ∃ a m b, x n = .ok (a, m) ∧ y m = .ok (b, n') ∧ s = f a b := by
  rw [run_bind_eq_ok]
  simp only [run_one_eq_ok]
  refine ⟨?_, ?_⟩
  · intro hexists
    obtain ⟨a, m, hx, b, hy, hs⟩ := hexists
    exact ⟨a, m, b, hx, hy, hs⟩
  · intro hexists
    obtain ⟨a, m, b, hx, hy, hs⟩ := hexists
    exact ⟨a, m, hx, b, hy, hs⟩

theorem run_three_eq_ok {α β γ δ : Type} {x : StateT Numbering (Except Fault) α}
    {y : StateT Numbering (Except Fault) β} {z : StateT Numbering (Except Fault) γ}
    {f : α → β → γ → δ} {n n' : Numbering} {s : δ} :
    (do return f (← x) (← y) (← z) : StateT Numbering (Except Fault) δ) n = .ok (s, n')
      ↔ ∃ a m b k c, x n = .ok (a, m) ∧ y m = .ok (b, k) ∧ z k = .ok (c, n') ∧ s = f a b c := by
  rw [run_bind_eq_ok]
  simp only [run_two_eq_ok]
  refine ⟨?_, ?_⟩
  · intro hexists
    obtain ⟨a, m, hx, b, k, c, hy, hz, hs⟩ := hexists
    exact ⟨a, m, b, k, c, hx, hy, hz, hs⟩
  · intro hexists
    obtain ⟨a, m, b, k, c, hx, hy, hz, hs⟩ := hexists
    exact ⟨a, m, hx, b, k, c, hy, hz, hs⟩

/-- A traversal that meets a fault has no result. -/
theorem throw_ne_ok {α : Type} {fault : Fault} {n : Numbering} {r : α × Numbering} :
    (throw fault : StateT Numbering (Except Fault) α) n ≠ .ok r := by
  intro h
  cases h

mutual

/-- **What the traversal computes is a sketch.** -/
theorem intSketched_of_eq : ∀ (t : Term) {n n' : Numbering} {s : IntSketch},
    t.intSketch n = .ok (s, n') → IntSketched n t s n'
  | .node (.nonTerminal _) _, _, _, _, h => by
      cases h
      exact .hole
  | .node (.terminal name) args, n, n', s, h => by
      unfold Term.intSketch at h
      cases hop : IntOp.ofName? name with
      | none =>
          simp only [hop] at h
          exact absurd h throw_ne_ok
      | some op =>
          cases op with
          | ite =>
              -- any other number of children is a fault
              rcases args with _ | ⟨c, _ | ⟨t, _ | ⟨e, _ | ⟨_, _⟩⟩⟩⟩ <;> simp only [hop] at h
              · exact absurd h throw_ne_ok
              · exact absurd h throw_ne_ok
              · exact absurd h throw_ne_ok
              · obtain ⟨c', n₁, t', n₂, e', hc, ht, he, rfl⟩ := run_three_eq_ok.mp h
                exact .ite hop (boolSketched_of_eq c hc) (intSketched_of_eq t ht)
                  (intSketched_of_eq e he)
              · exact absurd h throw_ne_ok
          | add =>
              rcases args with _ | ⟨l, _ | ⟨r, _ | ⟨_, _⟩⟩⟩ <;> simp only [hop] at h
              · exact absurd h throw_ne_ok
              · exact absurd h throw_ne_ok
              · obtain ⟨l', n₁, r', hl, hr, rfl⟩ := run_two_eq_ok.mp h
                exact .add hop (intSketched_of_eq l hl) (intSketched_of_eq r hr)
              · exact absurd h throw_ne_ok
          | multiply =>
              rcases args with _ | ⟨l, _ | ⟨r, _ | ⟨_, _⟩⟩⟩ <;> simp only [hop] at h
              · exact absurd h throw_ne_ok
              · exact absurd h throw_ne_ok
              · obtain ⟨l', n₁, r', hl, hr, rfl⟩ := run_two_eq_ok.mp h
                exact .multiply hop (intSketched_of_eq l hl) (intSketched_of_eq r hr)
              · exact absurd h throw_ne_ok
          | var v =>
              simp only [hop] at h
              cases h
              exact .var hop
          | literal value =>
              simp only [hop] at h
              cases h
              exact .literal hop

/-- The same where a truth value is wanted. -/
theorem boolSketched_of_eq : ∀ (t : Term) {n n' : Numbering} {s : BoolSketch},
    t.boolSketch n = .ok (s, n') → BoolSketched n t s n'
  | .node (.nonTerminal _) _, _, _, _, h => by
      cases h
      exact .hole
  | .node (.terminal name) args, n, n', s, h => by
      unfold Term.boolSketch at h
      cases hop : BoolOp.ofName? name with
      | none =>
          simp only [hop] at h
          exact absurd h throw_ne_ok
      | some op =>
          cases op with
          | not =>
              rcases args with _ | ⟨b, _ | ⟨_, _⟩⟩ <;> simp only [hop] at h
              · exact absurd h throw_ne_ok
              · obtain ⟨b', hb, rfl⟩ := run_one_eq_ok.mp h
                exact .not hop (boolSketched_of_eq b hb)
              · exact absurd h throw_ne_ok
          | lt =>
              rcases args with _ | ⟨l, _ | ⟨r, _ | ⟨_, _⟩⟩⟩ <;> simp only [hop] at h
              · exact absurd h throw_ne_ok
              · exact absurd h throw_ne_ok
              · obtain ⟨l', n₁, r', hl, hr, rfl⟩ := run_two_eq_ok.mp h
                exact .lt hop (intSketched_of_eq l hl) (intSketched_of_eq r hr)
              · exact absurd h throw_ne_ok
          | eq =>
              rcases args with _ | ⟨l, _ | ⟨r, _ | ⟨_, _⟩⟩⟩ <;> simp only [hop] at h
              · exact absurd h throw_ne_ok
              · exact absurd h throw_ne_ok
              · obtain ⟨l', n₁, r', hl, hr, rfl⟩ := run_two_eq_ok.mp h
                exact .eq hop (intSketched_of_eq l hl) (intSketched_of_eq r hr)
              · exact absurd h throw_ne_ok
          | and =>
              rcases args with _ | ⟨l, _ | ⟨r, _ | ⟨_, _⟩⟩⟩ <;> simp only [hop] at h
              · exact absurd h throw_ne_ok
              · exact absurd h throw_ne_ok
              · obtain ⟨l', n₁, r', hl, hr, rfl⟩ := run_two_eq_ok.mp h
                exact .and hop (boolSketched_of_eq l hl) (boolSketched_of_eq r hr)
              · exact absurd h throw_ne_ok
          | or =>
              rcases args with _ | ⟨l, _ | ⟨r, _ | ⟨_, _⟩⟩⟩ <;> simp only [hop] at h
              · exact absurd h throw_ne_ok
              · exact absurd h throw_ne_ok
              · obtain ⟨l', n₁, r', hl, hr, rfl⟩ := run_two_eq_ok.mp h
                exact .or hop (boolSketched_of_eq l hl) (boolSketched_of_eq r hr)
              · exact absurd h throw_ne_ok

end

/-- A term with a sketch is sketched, from the first numbering on. -/
theorem exists_sketched {t : Term} {s : IntSketch} (h : t.sketch = .ok s) :
    ∃ n', IntSketched {} t s n' := by
  unfold Term.sketch at h
  cases hrun : t.intSketch.run {} with
  | error fault =>
      rw [hrun] at h
      cases h
  | ok r =>
      rw [hrun] at h
      cases h
      exact ⟨r.2, intSketched_of_eq t hrun⟩

mutual

/-- Whatever has a sketch is traversed without a fault. -/
theorem IntSketched.intSketch_eq {n n' : Numbering} {t : Term} {s : IntSketch}
    (h : IntSketched n t s n') : t.intSketch n = .ok (s, n') := by
  cases h with
  | hole => rfl
  | ite hop hc ht he =>
      simp only [Term.intSketch, hop]
      exact run_three_eq_ok.mpr
        ⟨_, _, _, _, _, hc.boolSketch_eq, ht.intSketch_eq, he.intSketch_eq, rfl⟩
  | add hop hl hr =>
      simp only [Term.intSketch, hop]
      exact run_two_eq_ok.mpr ⟨_, _, _, hl.intSketch_eq, hr.intSketch_eq, rfl⟩
  | multiply hop hl hr =>
      simp only [Term.intSketch, hop]
      exact run_two_eq_ok.mpr ⟨_, _, _, hl.intSketch_eq, hr.intSketch_eq, rfl⟩
  | var hop =>
      unfold Term.intSketch
      simp only [hop]
      rfl
  | literal hop =>
      unfold Term.intSketch
      simp only [hop]
      rfl

theorem BoolSketched.boolSketch_eq {n n' : Numbering} {t : Term} {s : BoolSketch}
    (h : BoolSketched n t s n') : t.boolSketch n = .ok (s, n') := by
  cases h with
  | hole => rfl
  | lt hop hl hr =>
      simp only [Term.boolSketch, hop]
      exact run_two_eq_ok.mpr ⟨_, _, _, hl.intSketch_eq, hr.intSketch_eq, rfl⟩
  | eq hop hl hr =>
      simp only [Term.boolSketch, hop]
      exact run_two_eq_ok.mpr ⟨_, _, _, hl.intSketch_eq, hr.intSketch_eq, rfl⟩
  | and hop hl hr =>
      simp only [Term.boolSketch, hop]
      exact run_two_eq_ok.mpr ⟨_, _, _, hl.boolSketch_eq, hr.boolSketch_eq, rfl⟩
  | or hop hl hr =>
      simp only [Term.boolSketch, hop]
      exact run_two_eq_ok.mpr ⟨_, _, _, hl.boolSketch_eq, hr.boolSketch_eq, rfl⟩
  | not hop hb =>
      simp only [Term.boolSketch, hop]
      exact run_one_eq_ok.mpr ⟨_, hb.boolSketch_eq, rfl⟩

end

theorem IntSketched.sketch_eq {n' : Numbering} {t : Term} {s : IntSketch}
    (h : IntSketched {} t s n') : t.sketch = .ok s := by
  unfold Term.sketch
  show (·.1) <$> t.intSketch {} = _
  rw [h.intSketch_eq]
  rfl

/-! ## Thin sketches -/

mutual

/-- Whether a sketch has no unknowns. -/
def IntSketch.isClosed : IntSketch → Bool
  | .unknown _ => false
  | .var _ => true
  | .literal _ => true
  | .ite c t e => c.isClosed && t.isClosed && e.isClosed
  | .add l r => l.isClosed && r.isClosed
  | .multiply l r => l.isClosed && r.isClosed

/-- Whether a sketch has no unknowns. -/
def BoolSketch.isClosed : BoolSketch → Bool
  | .unknown _ => false
  | .lt l r => l.isClosed && r.isClosed
  | .eq l r => l.isClosed && r.isClosed
  | .and l r => l.isClosed && r.isClosed
  | .or l r => l.isClosed && r.isClosed
  | .not b => b.isClosed

end

/-- Whether a sketch has no unknowns, or no operands. -/
def IntSketch.isPlain : IntSketch → Bool
  | .unknown _ | .var _ | .literal _ => true
  | s => s.isClosed

mutual

/-- Whether each sum and each equation has a plain operand. -/
def IntSketch.isThin : IntSketch → Bool
  | .unknown _ | .var _ | .literal _ => true
  | .ite c t e => c.isThin && t.isThin && e.isThin
  | .add l r => l.isThin && r.isThin && (l.isPlain || r.isPlain)
  | .multiply l r => l.isThin && r.isThin

/-- Whether each sum and each equation has a plain operand. -/
def BoolSketch.isThin : BoolSketch → Bool
  | .unknown _ => true
  | .lt l r => l.isThin && r.isThin
  | .eq l r => l.isThin && r.isThin && (l.isPlain || r.isPlain)
  | .and l r => l.isThin && r.isThin
  | .or l r => l.isThin && r.isThin
  | .not b => b.isThin

end

theorem IntSketch.isPlain_of_isClosed {s : IntSketch} (h : s.isClosed = true) :
    s.isPlain = true := by
  cases s <;> first | rfl | exact h

mutual

/-- A complete term has a closed sketch. -/
theorem IntSketched.isClosed {n n' : Numbering} {t : Term} {s : IntSketch}
    (h : IntSketched n t s n') (ht : t.isComplete = true) : s.isClosed = true := by
  cases h with
  | hole => simp [Term.isComplete, Symbol.isTerminal] at ht
  | ite _ hc ht' he =>
      simp only [Term.isComplete, Term.allComplete, Bool.and_eq_true] at ht
      simp only [IntSketch.isClosed, Bool.and_eq_true]
      exact ⟨⟨hc.isClosed ht.2.1, ht'.isClosed ht.2.2.1⟩, he.isClosed ht.2.2.2.1⟩
  | add _ hl hr =>
      simp only [Term.isComplete, Term.allComplete, Bool.and_eq_true] at ht
      simp only [IntSketch.isClosed, Bool.and_eq_true]
      exact ⟨hl.isClosed ht.2.1, hr.isClosed ht.2.2.1⟩
  | multiply _ hl hr =>
      simp only [Term.isComplete, Term.allComplete, Bool.and_eq_true] at ht
      simp only [IntSketch.isClosed, Bool.and_eq_true]
      exact ⟨hl.isClosed ht.2.1, hr.isClosed ht.2.2.1⟩
  | var _ => rfl
  | literal _ => rfl

theorem BoolSketched.isClosed {n n' : Numbering} {t : Term} {s : BoolSketch}
    (h : BoolSketched n t s n') (ht : t.isComplete = true) : s.isClosed = true := by
  cases h with
  | hole => simp [Term.isComplete, Symbol.isTerminal] at ht
  | lt _ hl hr =>
      simp only [Term.isComplete, Term.allComplete, Bool.and_eq_true] at ht
      simp only [BoolSketch.isClosed, Bool.and_eq_true]
      exact ⟨hl.isClosed ht.2.1, hr.isClosed ht.2.2.1⟩
  | eq _ hl hr =>
      simp only [Term.isComplete, Term.allComplete, Bool.and_eq_true] at ht
      simp only [BoolSketch.isClosed, Bool.and_eq_true]
      exact ⟨hl.isClosed ht.2.1, hr.isClosed ht.2.2.1⟩
  | and _ hl hr =>
      simp only [Term.isComplete, Term.allComplete, Bool.and_eq_true] at ht
      simp only [BoolSketch.isClosed, Bool.and_eq_true]
      exact ⟨hl.isClosed ht.2.1, hr.isClosed ht.2.2.1⟩
  | or _ hl hr =>
      simp only [Term.isComplete, Term.allComplete, Bool.and_eq_true] at ht
      simp only [BoolSketch.isClosed, Bool.and_eq_true]
      exact ⟨hl.isClosed ht.2.1, hr.isClosed ht.2.2.1⟩
  | not _ hb =>
      simp only [Term.isComplete, Term.allComplete, Bool.and_eq_true] at ht
      exact hb.isClosed ht.2.1

end

/-- A complete term and a term without children have plain sketches. -/
theorem IntSketched.isPlain {n n' : Numbering} {t : Term} {s : IntSketch}
    (h : IntSketched n t s n') (ht : t.isComplete = true ∨ t.children.isEmpty = true) : s.isPlain = true := by
  rcases ht with ht | ht
  · exact IntSketch.isPlain_of_isClosed (h.isClosed ht)
  · cases h with
    | hole => rfl
    | ite _ _ _ _ => simp [Term.children] at ht
    | add _ _ _ => simp [Term.children] at ht
    | multiply _ _ _ => simp [Term.children] at ht
    | var _ => rfl
    | literal _ => rfl

mutual

/-- **A leftmost term has a thin sketch.** -/
theorem IntSketched.isThin {n n' : Numbering} {t : Term} {s : IntSketch}
    (h : IntSketched n t s n') (ht : t.isLeftmost = true) :
    s.isThin = true := by
  cases h with
  | hole => rfl
  | ite _ hc ht' he =>
      obtain ⟨hcl, hrest, _⟩ := Term.allLeftmost_cons ht
      obtain ⟨htl, hel, _⟩ := Term.allLeftmost_two hrest
      simp only [IntSketch.isThin, Bool.and_eq_true]
      exact ⟨⟨hc.isThin hcl, ht'.isThin htl⟩, he.isThin hel⟩
  | add _ hl hr =>
      obtain ⟨hll, hrl, hbeside⟩ := Term.allLeftmost_two ht
      simp only [IntSketch.isThin, Bool.and_eq_true, Bool.or_eq_true]
      exact ⟨⟨hl.isThin hll, hr.isThin hrl⟩,
        hbeside.imp (fun h => hl.isPlain (Or.inl h)) (fun h => hr.isPlain (Or.inr h))⟩
  | multiply _ hl hr =>
      obtain ⟨hll, hrl, _⟩ := Term.allLeftmost_two ht
      simp only [IntSketch.isThin, Bool.and_eq_true]
      exact ⟨hl.isThin hll, hr.isThin hrl⟩
  | var _ => rfl
  | literal _ => rfl

theorem BoolSketched.isThin {n n' : Numbering} {t : Term} {s : BoolSketch}
    (h : BoolSketched n t s n') (ht : t.isLeftmost = true) : s.isThin = true := by
  cases h with
  | hole => rfl
  | lt _ hl hr =>
      obtain ⟨hll, hrl, _⟩ := Term.allLeftmost_two ht
      simp only [BoolSketch.isThin, Bool.and_eq_true]
      exact ⟨hl.isThin hll, hr.isThin hrl⟩
  | eq _ hl hr =>
      obtain ⟨hll, hrl, hbeside⟩ := Term.allLeftmost_two ht
      simp only [BoolSketch.isThin, Bool.and_eq_true, Bool.or_eq_true]
      exact ⟨⟨hl.isThin hll, hr.isThin hrl⟩,
        hbeside.imp (fun h => hl.isPlain (Or.inl h)) (fun h => hr.isPlain (Or.inr h))⟩
  | and _ hl hr =>
      obtain ⟨hll, hrl, _⟩ := Term.allLeftmost_two ht
      simp only [BoolSketch.isThin, Bool.and_eq_true]
      exact ⟨hl.isThin hll, hr.isThin hrl⟩
  | or _ hl hr =>
      obtain ⟨hll, hrl, _⟩ := Term.allLeftmost_two ht
      simp only [BoolSketch.isThin, Bool.and_eq_true]
      exact ⟨hl.isThin hll, hr.isThin hrl⟩
  | not _ hb =>
      obtain ⟨hbl, _⟩ := Term.allLeftmost_cons ht
      exact hb.isThin hbl

end

end Sygus
