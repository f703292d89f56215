import Mathlib.Data.List.Basic
import Mathlib.Data.List.Induction
import Mathlib.Data.List.Perm.Basic
import Sygus.Grammar

/-!
# What a catalogue holds

A catalogue is built up one production at a time, and its table and its order are changed
independently. That they say the same about the productions so far is an invariant (`Holds`): the
table has the productions of each category in the order in which they came, and the order has the
categories as they first appeared.

So a look-up gives what a search through the whole list would give, and the listing, which goes by
the order, has every production of the list once.
-/

namespace Sygus

namespace Catalogue

variable {k : Catalogue} {p : Production} {ps : List Production} {category : String}

theorem order_add :
    (k.add p).order = if (k.table p.target).isSome then k.order else k.order ++ [p.target] := rfl

theorem table_add : (k.add p).table category =
    if category = p.target then some ((k.table category).getD [] ++ [p])
    else k.table category := rfl

/-- The names of the categories, as often as they occur. -/
def targets (ps : List Production) : List String := ps.map (·.target)

/-- The catalogue is that of the productions `ps`. -/
structure Holds (k : Catalogue) (ps : List Production) : Prop where
  /-- A category that has not appeared is not in the table. -/
  absent : ∀ category, category ∉ targets ps → k.table category = none
  /-- The others have their productions there, in the order of the list. -/
  present : ∀ category, category ∈ targets ps →
    k.table category = some (ps.filter (·.target = category))
  /-- A category comes before those that appear later. -/
  earlier : k.order.Pairwise fun c d => (targets ps).idxOf c < (targets ps).idxOf d

theorem targets_concat : targets (ps ++ [p]) = targets ps ++ [p.target] := List.map_append

theorem mem_targets_iff : category ∈ targets ps ↔ ∃ p ∈ ps, p.target = category := List.mem_map

theorem filter_eq_nil_iff_not_mem_targets :
    ps.filter (·.target = category) = [] ↔ category ∉ targets ps := by
  rw [List.filter_eq_nil_iff, mem_targets_iff]
  simp

namespace Holds

theorem mem_order_iff (h : k.Holds ps) : category ∈ k.order ↔ category ∈ targets ps := by
  rw [k.inStep]
  by_cases hmem : category ∈ targets ps
  · rw [h.present category hmem]
    simp [hmem]
  · rw [h.absent category hmem]
    simp [hmem]

/-- What a category had so far, and nothing if it appears now. -/
theorem getD_table (h : k.Holds ps) :
    (k.table category).getD [] = ps.filter (·.target = category) := by
  by_cases hmem : category ∈ targets ps
  · rw [h.present category hmem, Option.getD_some]
  · rw [h.absent category hmem, Option.getD_none, filter_eq_nil_iff_not_mem_targets.mpr hmem]

theorem start : empty.Holds [] where
  absent _ _ := rfl
  present _ hmem := absurd hmem List.not_mem_nil
  earlier := .nil

/-- A category that has appeared stays where it is. -/
theorem idxOf_targets_concat (h : k.Holds ps) (hmem : category ∈ k.order) :
    (targets (ps ++ [p])).idxOf category = (targets ps).idxOf category := by
  rw [targets_concat, List.idxOf_append_of_mem (h.mem_order_iff.mp hmem)]

theorem earlier_concat (h : k.Holds ps) : k.order.Pairwise fun c d =>
    (targets (ps ++ [p])).idxOf c < (targets (ps ++ [p])).idxOf d := by
  refine h.earlier.imp_of_mem fun {c d} hc hd hlt => ?_
  rw [h.idxOf_targets_concat hc, h.idxOf_targets_concat hd]
  exact hlt

/-- **One more production keeps table and order in step with the list.** -/
theorem add (h : k.Holds ps) (p : Production) : (k.add p).Holds (ps ++ [p]) where
  absent category hmem := by
    rw [targets_concat, List.mem_append, List.mem_singleton, not_or] at hmem
    rw [table_add, if_neg hmem.2]
    exact h.absent category hmem.1
  present category hmem := by
    rw [table_add, List.filter_append]
    by_cases hcategory : category = p.target
    · rw [if_pos hcategory, h.getD_table]
      simp [hcategory]
    · rw [targets_concat, List.mem_append, List.mem_singleton] at hmem
      have hold : category ∈ targets ps := hmem.resolve_right hcategory
      rw [if_neg hcategory, h.present category hold]
      simp [Ne.symm hcategory]
  earlier := by
    rw [order_add]
    split
    · exact h.earlier_concat
    · rename_i hnew
      have habsent : p.target ∉ targets ps := by
        rw [← h.mem_order_iff, k.inStep]
        exact hnew
      rw [List.pairwise_append]
      refine ⟨h.earlier_concat, List.pairwise_singleton .., fun c hc d hd => ?_⟩
      -- the new category appears at the end of the list, all others before it
      rw [List.mem_singleton] at hd
      rw [h.idxOf_targets_concat hc, hd, targets_concat, List.idxOf_append_of_notMem habsent]
      exact Nat.lt_add_right _ (List.idxOf_lt_length_iff.mpr (h.mem_order_iff.mp hc))

end Holds

/-- **A catalogue holds the productions that it is built from.** -/
theorem holds_ofList (ps : List Production) : (ofList ps).Holds ps := by
  induction ps using List.reverseRecOn with
  | nil => exact Holds.start
  | append_singleton ps p ih =>
      rw [ofList, List.foldl_append]
      exact ih.add p

/-! ## Looking up -/

/-- **A look-up gives the productions of the category in their order**, and fails if there are
none. -/
theorem Holds.productionsOf_eq (h : k.Holds ps) : k.productionsOf category =
    if ps.filter (·.target = category) = [] then .error (.undefinedNonTerminal category)
    else .ok (ps.filter (·.target = category)) := by
  rw [productionsOf]
  by_cases hmem : category ∈ targets ps
  · rw [h.present category hmem, if_neg]
    rwa [filter_eq_nil_iff_not_mem_targets, not_not]
  · rw [h.absent category hmem, if_pos (filter_eq_nil_iff_not_mem_targets.mpr hmem)]

/-- It makes no difference whether a grammar is searched or its catalogue looked up. -/
theorem productionsOf_catalogue (g : Grammar) (category : String) :
    g.catalogue.productionsOf category = g.productionsOf category := by
  rw [Grammar.catalogue, (holds_ofList g.productions).productionsOf_eq, Grammar.productionsOf]
  cases g.productions.filter (·.target = category) with
  | nil => rfl
  | cons p ps => rfl

/-! ## Listing -/

theorem Holds.productionsIn_eq (h : k.Holds ps) (hmem : category ∈ k.order) :
    k.productionsIn category hmem = ps.filter (·.target = category) := by
  have hpresent := h.present category (h.mem_order_iff.mp hmem)
  simp only [productionsIn, hpresent, Option.get_some]

theorem Holds.listing_eq (h : k.Holds ps) :
    k.listing = k.order.flatMap fun category => ps.filter (·.target = category) := by
  rw [listing, List.flatMap_subtype fun _ hmem => h.productionsIn_eq hmem, List.unattach_attach]

theorem Holds.nodup_order (h : k.Holds ps) : k.order.Nodup :=
  h.earlier.imp fun hlt heq => absurd hlt (by rw [heq]; exact Nat.lt_irrefl _)

/-- Sorting productions by categories, each of them named once and theirs among them, loses none and
repeats none. -/
theorem perm_flatMap_filter {order : List String} (hnodup : order.Nodup)
    (hall : ∀ p ∈ ps, p.target ∈ order) :
    (order.flatMap fun category => ps.filter (·.target = category)).Perm ps := by
  induction order generalizing ps with
  | nil =>
      have hnil : ps = [] := List.eq_nil_iff_forall_not_mem.mpr fun p hp =>
        absurd (hall p hp) List.not_mem_nil
      rw [hnil]
      exact .refl _
  | cons c order ih =>
      have hc : c ∉ order := (List.nodup_cons.mp hnodup).1
      -- the other categories see the same productions if those of `c` are left out
      have hothers : (order.flatMap fun category => ps.filter (·.target = category))
          = order.flatMap fun category =>
            (ps.filter fun p => !decide (p.target = c)).filter (·.target = category) := by
        refine List.flatMap_congr fun category hcategory => ?_
        rw [List.filter_filter]
        refine List.filter_congr fun p _ => ?_
        by_cases htarget : p.target = category
        · have hne : p.target ≠ c := fun heq => hc (heq ▸ htarget ▸ hcategory)
          simp [hne]
        · simp [htarget]
      have hrest : ∀ p ∈ ps.filter fun p => !decide (p.target = c), p.target ∈ order := by
        intro p hp
        rw [List.mem_filter] at hp
        have hne : p.target ≠ c := by simpa using hp.2
        exact (List.mem_cons.mp (hall p hp.1)).resolve_left hne
      rw [List.flatMap_cons, hothers]
      exact ((ih (List.nodup_cons.mp hnodup).2 hrest).append_left _).trans
        (List.filter_append_perm _ ps)

/-- **The listing has every production of the list once.** -/
theorem Holds.listing_perm (h : k.Holds ps) : k.listing.Perm ps := by
  rw [h.listing_eq]
  exact perm_flatMap_filter h.nodup_order fun p hp =>
    h.mem_order_iff.mpr (mem_targets_iff.mpr ⟨p, hp, rfl⟩)

end Catalogue

theorem Grammar.text_eq (g : Grammar) :
    g.text = s!"Start symbol: {g.start}\nProductions:\n" ++
      String.join (g.catalogue.listing.map fun p => s!"  {p.text}\n") := rfl

end Sygus
