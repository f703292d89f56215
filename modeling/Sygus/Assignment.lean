/-!
# Assignments

An input gives 64-bit values to names. Names are kept in ascending order by code
point and each occurs once, so two assignments are equal exactly when they give
the same names the same values.
-/

namespace Sygus

namespace Assignment

/-- Entries in ascending order of their names. -/
def Ascending (entries : List (String × Int64)) : Prop :=
  entries.Pairwise fun a b => a.1 < b.1

/-- Gives `name` a value, in place of the one it has or as a new entry. -/
def insertEntry (name : String) (value : Int64) :
    List (String × Int64) → List (String × Int64)
  | [] => [(name, value)]
  | e :: rest =>
    if name < e.1 then (name, value) :: e :: rest
    else if name = e.1 then (name, value) :: rest
    else e :: insertEntry name value rest

theorem mem_insertEntry {name : String} {value : Int64} {entries : List (String × Int64)}
    {e : String × Int64} (h : e ∈ insertEntry name value entries) :
    e = (name, value) ∨ e ∈ entries := by
  induction entries with
  | nil => simpa [insertEntry] using h
  | cons f rest ih =>
    rw [insertEntry] at h
    split at h
    · simpa using h
    · split at h
      · simp only [List.mem_cons] at h ⊢
        exact h.imp_right .inr
      · simp only [List.mem_cons] at h ⊢
        rcases h with h | h
        · exact .inr (.inl h)
        · exact (ih h).imp_right .inr

theorem Ascending.insertEntry {name : String} {value : Int64} {entries : List (String × Int64)}
    (h : Ascending entries) : Ascending (insertEntry name value entries) := by
  induction entries with
  | nil => simp [Assignment.insertEntry, Ascending]
  | cons e rest ih =>
    have ⟨he, hrest⟩ := List.pairwise_cons.mp h
    rw [Assignment.insertEntry]
    split
    · rename_i hlt
      refine List.pairwise_cons.mpr ⟨fun f hf => ?_, h⟩
      rcases List.mem_cons.mp hf with rfl | hf
      · exact hlt
      · exact String.lt_trans hlt (he f hf)
    · split
      · rename_i heq
        exact List.pairwise_cons.mpr ⟨fun f hf => heq ▸ he f hf, hrest⟩
      · rename_i hnlt hne
        refine List.pairwise_cons.mpr ⟨fun f hf => ?_, ih hrest⟩
        rcases mem_insertEntry hf with rfl | hf
        · exact Std.lt_of_le_of_ne (Std.not_lt.mp hnlt) (Ne.symm hne)
        · exact he f hf

end Assignment

/-- A finite map from names to values. -/
structure Assignment where
  entries : List (String × Int64)
  ascending : Assignment.Ascending entries
  deriving DecidableEq

namespace Assignment

/-- The assignment without names. -/
def empty : Assignment := ⟨[], .nil⟩

/-- Gives `name` the value, whatever it had before. -/
def insert (a : Assignment) (name : String) (value : Int64) : Assignment :=
  ⟨insertEntry name value a.entries, a.ascending.insertEntry⟩

/-- The last value of a repeated name wins. -/
def ofList (pairs : List (String × Int64)) : Assignment :=
  pairs.foldl (fun a p => a.insert p.1 p.2) empty

/-- The value of a name, if it has one. -/
def get? (a : Assignment) (name : String) : Option Int64 := a.entries.lookup name

theorem lookup_cons (name : String) (e : String × Int64) (rest : List (String × Int64)) :
    (e :: rest).lookup name = if name = e.1 then some e.2 else rest.lookup name := by
  obtain ⟨key, value⟩ := e
  by_cases h : name = key
  · rw [if_pos h, h, List.lookup_cons_self]
  · rw [if_neg h, List.lookup_cons, beq_eq_false_iff_ne.mpr h]

theorem lookup_insertEntry (name other : String) (value : Int64)
    (entries : List (String × Int64)) :
    (insertEntry name value entries).lookup other
      = if other = name then some value else entries.lookup other := by
  induction entries with
  | nil => rw [insertEntry, lookup_cons]
  | cons e rest ih =>
    rw [insertEntry]
    split
    · rw [lookup_cons]
    · split
      · rename_i heq
        rw [lookup_cons, lookup_cons, heq]
        split <;> rfl
      · rename_i hne
        rw [lookup_cons, lookup_cons, ih]
        by_cases hother : other = e.1
        · rw [if_pos hother, if_pos hother, if_neg fun heq => hne (heq.symm.trans hother)]
        · rw [if_neg hother, if_neg hother]

/-- A name that is given a value has it, and the other names keep theirs. -/
theorem get?_insert (a : Assignment) (name other : String) (value : Int64) :
    (a.insert name value).get? other = if other = name then some value else a.get? other :=
  lookup_insertEntry name other value a.entries

end Assignment

end Sygus
