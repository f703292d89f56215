import Mathlib.Data.List.Forall2
import Mathlib.Data.List.Sort
import Sygus.Example.Reader
import Sygus.Proofs.Text.Integers

/-!
# The format of examples

A line is an example if it has an arrow, a literal after the first arrow, and before it, between
commas, nothing but blank pieces and bindings. This is said here without saying how a line is
read, and so is what the first problem of any other line is. The reader accepts exactly the
lines of this format, gives each name the value of its last binding, and reports the first
problem (`reads_exactly_the_format`).
-/

namespace Sygus

open Text (FirstCut Split Lines Trims Blank Literal Unreadable)

/-! ## Assignments made of bindings -/

namespace Assignment

variable {a b : Assignment} {name : String} {v : Int64} {bindings : List (String × Int64)}

theorem get?_eq_some_iff : a.get? name = some v ↔ (name, v) ∈ a.entries := by
  rw [get?, List.lookup_eq_some_iff]
  constructor
  · rintro ⟨before, after, heq, -⟩
    simp [heq]
  · intro h
    obtain ⟨before, after, heq⟩ := List.append_of_mem h
    refine ⟨before, after, heq, fun e he => ?_⟩
    have hlt := (List.pairwise_append.mp (heq ▸ a.ascending)).2.2 e he (name, v) (.head _)
    exact bne_iff_ne.mpr fun h => String.lt_irrefl name (by rwa [← h] at hlt)

/-- An assignment is the values that it gives to names. -/
theorem ext_get? (h : ∀ name, a.get? name = b.get? name) : a = b := by
  obtain ⟨as, has⟩ := a
  obtain ⟨bs, hbs⟩ := b
  have hmem : ∀ e, e ∈ as ↔ e ∈ bs := fun e => by
    rw [← @get?_eq_some_iff ⟨as, has⟩ e.1 e.2, ← @get?_eq_some_iff ⟨bs, hbs⟩ e.1 e.2, h]
  have : Std.Antisymm fun a b : String × Int64 => a.1 < b.1 :=
    ⟨fun _ _ hlt hlt' => absurd hlt' (String.lt_asymm hlt)⟩
  have : Std.Irrefl fun a b : String × Int64 => a.1 < b.1 := ⟨fun a => String.lt_irrefl a.1⟩
  obtain rfl := List.Pairwise.eq_of_mem_iff has hbs hmem
  rfl

theorem ofList_concat (bindings : List (String × Int64)) (e : String × Int64) :
    ofList (bindings ++ [e]) = (ofList bindings).insert e.1 e.2 := by
  simp [ofList]

/-- A name has the value of its last binding. -/
theorem get?_ofList (bindings : List (String × Int64)) (name : String) :
    (ofList bindings).get? name = bindings.reverse.lookup name := by
  induction bindings using List.reverseRecOn with
  | nil => rfl
  | append_singleton bindings e ih =>
    rw [ofList_concat, get?_insert, ih, List.reverse_append]
    exact (lookup_cons name e bindings.reverse).symm

theorem get?_ofList_eq_some_iff :
    (ofList bindings).get? name = some v ↔
      ∃ before after, bindings = before ++ (name, v) :: after ∧ ∀ e ∈ after, e.1 ≠ name := by
  rw [get?_ofList, List.lookup_eq_some_iff]
  constructor
  · rintro ⟨after, before, heq, hne⟩
    refine ⟨before.reverse, after.reverse, ?_, fun e he => ?_⟩
    · rw [← List.reverse_reverse bindings, heq]
      simp
    · exact Ne.symm (bne_iff_ne.mp (hne e (List.mem_reverse.mp he)))
  · rintro ⟨before, after, rfl, hne⟩
    exact ⟨after.reverse, before.reverse, by simp,
      fun e he => bne_iff_ne.mpr (Ne.symm (hne e (List.mem_reverse.mp he)))⟩

end Assignment

namespace Example

/-! ## Reading one thing after another -/

section

variable {ε α β : Type} {f : α → Except ε β} {keep : α → Bool} {xs : List α} {ys : List β} {e : ε}

theorem mapM_cons_eq (f : α → Except ε β) (x : α) (xs : List α) :
    (x :: xs).mapM f
      = match f x with
        | .error e => .error e
        | .ok y => (xs.mapM f).map (y :: ·) := by
  rw [List.mapM_cons]
  cases f x with
  | error e => rfl
  | ok y => cases xs.mapM f <;> rfl

/-- All are read, each in its turn. -/
theorem mapM_eq_ok_iff : xs.mapM f = .ok ys ↔ List.Forall₂ (fun x y => f x = .ok y) xs ys := by
  induction xs generalizing ys with
  | nil =>
    rw [List.forall₂_nil_left_iff]
    exact ⟨fun h => (Except.ok.inj h).symm, fun h => h ▸ rfl⟩
  | cons x xs ih =>
    rw [mapM_cons_eq, List.forall₂_cons_left_iff]
    cases hx : f x with
    | error e => simp
    | ok y =>
      cases hxs : xs.mapM f with
      | error e => simp [Except.map, ← ih, hxs]
      | ok ys' => simp [Except.map, ← ih, hxs, eq_comm]

/-- The first of its kind is the head, or the first of its kind behind a head of the other kind. -/
theorem exists_first_cons_iff {good bad : α → Prop} {x : α} :
    (∃ before y after, x :: xs = before ++ y :: after ∧ (∀ z ∈ before, good z) ∧ bad y) ↔
      bad x ∨ good x ∧
        ∃ before y after, xs = before ++ y :: after ∧ (∀ z ∈ before, good z) ∧ bad y := by
  constructor
  · rintro ⟨before, y, after, heq, hbefore, hy⟩
    cases before with
    | nil =>
      obtain ⟨rfl, rfl⟩ := List.cons.inj heq
      exact .inl hy
    | cons z before =>
      obtain ⟨rfl, rfl⟩ := List.cons.inj heq
      have ⟨hx, hbefore⟩ := List.forall_mem_cons.mp hbefore
      exact .inr ⟨hx, before, y, after, rfl, hbefore, hy⟩
  · rintro (hx | ⟨hx, before, y, after, rfl, hbefore, hy⟩)
    · exact ⟨[], x, xs, rfl, nofun, hx⟩
    · exact ⟨x :: before, y, after, rfl, List.forall_mem_cons.mpr ⟨hx, hbefore⟩, hy⟩

/-- The first that cannot be read is to blame. -/
theorem filter_mapM_eq_error_iff :
    (xs.filter keep).mapM f = .error e ↔
      ∃ before x after, xs = before ++ x :: after ∧
        (∀ y ∈ before, keep y = true → ∃ z, f y = .ok z) ∧ keep x = true ∧ f x = .error e := by
  induction xs with
  | nil => simp [pure, Except.pure]
  | cons x xs ih =>
    rw [exists_first_cons_iff, ← ih]
    by_cases hkeep : keep x = true
    · rw [List.filter_cons_of_pos hkeep, mapM_cons_eq]
      cases hx : f x with
      | error e' => simp [hkeep]
      | ok y => cases (xs.filter keep).mapM f <;> simp [Except.map, hkeep]
    · rw [List.filter_cons_of_neg hkeep]
      simp [hkeep]

theorem exists_of_forall₂ {R : α → β → Prop} (h : List.Forall₂ R xs ys) {x : α} (hx : x ∈ xs) :
    ∃ y ∈ ys, R x y := by
  induction h with
  | nil => cases hx
  | cons hhead _ ih =>
    rcases List.mem_cons.mp hx with rfl | hx
    · exact ⟨_, .head _, hhead⟩
    · obtain ⟨y, hy, hxy⟩ := ih hx
      exact ⟨y, .tail _ hy, hxy⟩

theorem exists_filter_mapM_eq_ok_iff :
    (∃ ys, (xs.filter keep).mapM f = .ok ys) ↔
      ∀ x ∈ xs, keep x = true → ∃ y, f x = .ok y := by
  constructor
  · rintro ⟨ys, hys⟩ x hx hkeep
    obtain ⟨y, -, hy⟩ :=
      exists_of_forall₂ (mapM_eq_ok_iff.mp hys) (List.mem_filter.mpr ⟨hx, hkeep⟩)
    exact ⟨y, hy⟩
  · intro hall
    cases hread : (xs.filter keep).mapM f with
    | ok ys => exact ⟨ys, rfl⟩
    | error e =>
      obtain ⟨before, x, after, rfl, -, hkeep, hx⟩ := filter_mapM_eq_error_iff.mp hread
      obtain ⟨y, hy⟩ := hall x (by simp) hkeep
      exact absurd (hx.symm.trans hy) nofun

theorem eq_filterMap_of_forall₂ {g : α → Option β}
    (h : List.Forall₂ (fun x y => g x = some y) xs ys) : ys = xs.filterMap g := by
  induction h with
  | nil => rfl
  | cons hhead _ ih => rw [List.filterMap_cons_some hhead, ih]

/-- If what is left out cannot be read anyway, nothing has to be left out. -/
theorem eq_filterMap_of_mapM (hskip : ∀ x ∈ xs, keep x = false → (f x).toOption = none)
    (h : (xs.filter keep).mapM f = .ok ys) : ys = xs.filterMap fun x => (f x).toOption := by
  have hkept : ys = (xs.filter keep).filterMap fun x => (f x).toOption :=
    eq_filterMap_of_forall₂ ((mapM_eq_ok_iff.mp h).imp fun x y hxy => by rw [hxy]; rfl)
  rw [hkept, List.filterMap_filter]
  refine List.filterMap_congr fun x hx => ?_
  split
  · rfl
  · rename_i hkeep
    exact (hskip x hx (Bool.eq_false_iff.mpr hkeep)).symm

end

/-! ## The format -/

variable {line : String} {s piece left right output : List Char} {name : String} {v : Int64}
  {flaw : Flaw} {pieces : List (List Char)}

/-- Trimmed, the text is a literal of `v`. -/
def Denotes (s : List Char) (v : Int64) : Prop := ∃ t, Trims s t ∧ Literal t v.toInt

/-- The piece has a `=`, the name is before the first one and a literal of the value after it. -/
def Binds (piece : List Char) (name : String) (v : Int64) : Prop :=
  ∃ left right, FirstCut ['='] piece left right ∧ Trims left name.toList ∧ Denotes right v

/-- What is wrong with a piece that is neither blank nor a binding. -/
inductive Misbinds (piece : List Char) : Flaw → Prop
  | notABinding {t : List Char} (htrims : Trims piece t) (hne : t ≠ []) (h : '=' ∉ piece) :
      Misbinds piece (.notABinding (String.ofList t))
  | badValue {left right t : List Char} {name : String} {reason : Text.IntegerFlaw}
      (hcut : FirstCut ['='] piece left right) (hname : Trims left name.toList)
      (hvalue : Trims right t) (hreason : Unreadable t reason) :
      Misbinds piece (.badValue name reason)

/-- The line is cut at its first arrow, and what stands before the arrow at every comma. -/
def Parts (line : String) (pieces : List (List Char)) (output : List Char) : Prop :=
  ∃ input, FirstCut ['-', '>'] line.toList input output ∧ Split ',' input pieces

/-- Each piece is blank or a binding. -/
def Bindings (pieces : List (List Char)) : Prop :=
  ∀ piece ∈ pieces, Blank piece ∨ ∃ name v, Binds piece name v

/-- A piece gives `v` to the name, and no later piece gives it anything. -/
def BindsLast (pieces : List (List Char)) (name : String) (v : Int64) : Prop :=
  ∃ before piece after, pieces = before ++ piece :: after ∧ Binds piece name v ∧
    ∀ piece' ∈ after, ∀ w, ¬ Binds piece' name w

/-- The line is an example. -/
def Formatted (line : String) : Prop :=
  ∃ pieces output, Parts line pieces output ∧ (∃ v, Denotes output v) ∧ Bindings pieces

/-- The line is this example: its output is the literal after the arrow, and its input gives
each name the value of its last binding. -/
def Says (line : String) (e : Example) : Prop :=
  ∃ pieces output, Parts line pieces output ∧ Denotes output e.output ∧ Bindings pieces ∧
    ∀ name v, e.input.get? name = some v ↔ BindsLast pieces name v

/-- The first problem of a line that is no example: the arrow comes before the output, and the
output before the pieces from the left. -/
inductive Problem (line : String) : Flaw → Prop
  | missingArrow (h : ¬ ['-', '>'] <:+: line.toList) : Problem line .missingArrow
  | badOutput {pieces : List (List Char)} {output t : List Char} {reason : Text.IntegerFlaw}
      (hparts : Parts line pieces output) (htrims : Trims output t)
      (hreason : Unreadable t reason) : Problem line (.badOutput reason)
  | badPiece {before after : List (List Char)} {piece output : List Char} {v : Int64} {flaw : Flaw}
      (hparts : Parts line (before ++ piece :: after) output) (houtput : Denotes output v)
      (hbefore : Bindings before) (hpiece : Misbinds piece flaw) : Problem line flaw

/-! ## Values and bindings -/

theorem denotes_iff : Denotes s v ↔ Text.readInt64 (Text.trim s) = .ok v := by
  rw [Text.readInt64_eq_ok_iff]
  constructor
  · rintro ⟨t, htrims, hliteral⟩
    rwa [htrims.trim_eq]
  · exact fun h => ⟨_, Text.trims_trim s, h⟩

theorem not_blank_of_mem (h : '=' ∈ s) : ¬ Blank s := fun hblank => absurd (hblank '=' h) (by decide)

/-- A piece that is trimmed first is cut at the same `=`. -/
theorem cut?_trim (h : FirstCut ['='] piece left right) :
    ∃ left' right', Text.cut? ['='] (Text.trim piece) = some (left', right') ∧
      Text.trim left' = Text.trim left ∧ Text.trim right' = Text.trim right := by
  obtain ⟨-, l, r, hl, hr, hpiece⟩ := Text.trims_trim piece
  have ⟨hcut, _⟩ := Text.firstCut_singleton_iff.mp h
  -- the blanks at the ends have no `=` in them, so the first one stands between them
  have hleft : '=' ∉ l := fun hmem => not_blank_of_mem hmem hl
  have hright : '=' ∉ r := fun hmem => not_blank_of_mem hmem hr
  have hmem : '=' ∈ Text.trim piece := by
    have hpiece' : '=' ∈ l ++ Text.trim piece ++ r := by
      rw [← hpiece, hcut]
      simp
    simpa [hleft, hright] using hpiece'
  obtain ⟨left', right', htrim, hnot⟩ := List.eq_append_cons_of_mem hmem
  have hwhole : FirstCut ['='] piece (l ++ left') (right' ++ r) := by
    refine Text.firstCut_singleton_iff.mpr ⟨?_, by simp [hleft, hnot]⟩
    conv_lhs => rw [hpiece, htrim]
    simp
  obtain ⟨rfl, rfl⟩ := h.unique hwhole
  refine ⟨left', right', Text.cut?_eq_some_iff.mpr
    (Text.firstCut_singleton_iff.mpr ⟨htrim, hnot⟩), ?_, ?_⟩
  · simpa using (Text.trim_append hl Text.blank_nil left').symm
  · simpa using (Text.trim_append Text.blank_nil hr right').symm

theorem readBinding_of_cut (h : FirstCut ['='] piece left right) :
    readBinding (Text.trim piece)
      = match Text.readInt64 (Text.trim right) with
        | .error reason => .error (.badValue (String.ofList (Text.trim left)) reason)
        | .ok v => .ok (String.ofList (Text.trim left), v) := by
  obtain ⟨left', right', hcut, hleft, hright⟩ := cut?_trim h
  rw [readBinding, hcut]
  cases hvalue : Text.readInt64 (Text.trim right) with
  | error reason => simp only [hleft, hright, hvalue]
  | ok v => simp only [hleft, hright, hvalue]

theorem readBinding_of_not_mem (h : '=' ∉ piece) :
    readBinding (Text.trim piece) = .error (.notABinding (String.ofList (Text.trim piece))) := by
  have hcut : Text.cut? ['='] (Text.trim piece) = none := by
    rw [Text.cut?_eq_none_iff]
    rintro ⟨before, after, heq⟩
    obtain ⟨-, l, r, -, -, hpiece⟩ := Text.trims_trim piece
    exact h (by rw [hpiece, ← heq]; simp)
  rw [readBinding, hcut]

/-- A text with a `=` is cut at the first one. -/
theorem exists_firstCut (h : '=' ∈ piece) : ∃ left right, FirstCut ['='] piece left right := by
  obtain ⟨left, right, hcut⟩ := List.eq_append_cons_of_mem h
  exact ⟨left, right, Text.firstCut_singleton_iff.mpr hcut⟩

theorem readBinding_eq_ok_iff :
    readBinding (Text.trim piece) = .ok (name, v) ↔ Binds piece name v := by
  by_cases hmem : '=' ∈ piece
  · obtain ⟨left, right, hcut⟩ := exists_firstCut hmem
    have hbinds : Binds piece name v ↔
        String.ofList (Text.trim left) = name ∧ Text.readInt64 (Text.trim right) = .ok v := by
      rw [← denotes_iff, ← String.toList_inj, String.toList_ofList, Text.trim_eq_iff]
      constructor
      · rintro ⟨left', right', hcut', h⟩
        obtain ⟨rfl, rfl⟩ := hcut.unique hcut'
        exact h
      · exact fun h => ⟨left, right, hcut, h⟩
    rw [hbinds, readBinding_of_cut hcut]
    cases Text.readInt64 (Text.trim right) <;> simp
  · rw [readBinding_of_not_mem hmem]
    refine ⟨(nomatch ·), ?_⟩
    rintro ⟨left, right, hcut, -⟩
    exact absurd (by simp [hcut.1]) hmem

theorem readBinding_eq_error_iff (hpiece : ¬ Blank piece) :
    readBinding (Text.trim piece) = .error flaw ↔ Misbinds piece flaw := by
  by_cases hmem : '=' ∈ piece
  · obtain ⟨left, right, hcut⟩ := exists_firstCut hmem
    rw [readBinding_of_cut hcut]
    constructor
    · intro h
      cases hread : Text.readInt64 (Text.trim right) with
      | ok v => simp [hread] at h
      | error reason =>
        rw [hread] at h
        obtain rfl := Except.error.inj h
        exact .badValue hcut (by simpa using Text.trims_trim left) (Text.trims_trim right)
          (Text.readInt64_eq_error_iff.mp hread)
    · intro h
      cases h with
      | notABinding _ _ hnot => exact absurd hmem hnot
      | badValue hcut' hname hvalue hreason =>
        obtain ⟨rfl, rfl⟩ := hcut.unique hcut'
        rw [hvalue.trim_eq, Text.readInt64_eq_error_iff.mpr hreason, hname.trim_eq,
          String.ofList_toList]
  · rw [readBinding_of_not_mem hmem, Except.error.injEq]
    constructor
    · rintro rfl
      exact .notABinding (Text.trims_trim piece) (mt Text.trim_eq_nil_iff.mp hpiece) hmem
    · intro h
      cases h with
      | notABinding htrims => rw [htrims.trim_eq]
      | badValue hcut => exact absurd (by simp [hcut.1]) hmem

/-! ## Inputs -/

/-- The pieces that are read are the ones that are not blank. -/
theorem readInput_eq (s : List Char) :
    readInput s = ((Text.pieces ',' s).filter fun piece => !(Text.trim piece).isEmpty).mapM
      fun piece => readBinding (Text.trim piece) := by
  rw [readInput, List.filter_map, List.mapM_map]
  rfl

theorem isEmpty_trim : (!(Text.trim piece).isEmpty) = true ↔ ¬ Blank piece := by
  rw [← Text.trim_eq_nil_iff]
  simp

theorem bindings_iff :
    Bindings pieces ↔ ∀ piece ∈ pieces, (!(Text.trim piece).isEmpty) = true →
      ∃ b, readBinding (Text.trim piece) = .ok b := by
  refine forall₂_congr fun piece _ => ?_
  rw [isEmpty_trim, or_iff_not_imp_left, Prod.exists]
  simp only [readBinding_eq_ok_iff]

/-- What a piece binds, if it is a binding. -/
def binding? (piece : List Char) : Option (String × Int64) :=
  (readBinding (Text.trim piece)).toOption

theorem binding?_eq_some_iff {b : String × Int64} :
    binding? piece = some b ↔ Binds piece b.1 b.2 := by
  rw [← readBinding_eq_ok_iff, binding?]
  cases readBinding (Text.trim piece) <;> simp [Except.toOption]

theorem binding?_of_blank (h : Blank piece) : binding? piece = none := by
  rw [binding?, Text.trim_eq_nil_iff.mpr h]
  rfl

/-- Bindings from left to right give each name the value that the last of them gives it. -/
theorem get?_ofList_filterMap_iff :
    (Assignment.ofList (pieces.filterMap binding?)).get? name = some v ↔
      BindsLast pieces name v := by
  rw [Assignment.get?_ofList_eq_some_iff]
  constructor
  · rintro ⟨bs, bs', heq, hne⟩
    obtain ⟨before, rest, rfl, -, hrest⟩ := List.filterMap_eq_append_iff.mp heq
    obtain ⟨between, piece, after, rfl, -, hpiece, rfl⟩ := List.filterMap_eq_cons_iff.mp hrest
    refine ⟨before ++ between, piece, after, by simp, binding?_eq_some_iff.mp hpiece, ?_⟩
    intro piece' hmem w hbinds
    exact hne (name, w) (List.mem_filterMap.mpr ⟨piece', hmem, binding?_eq_some_iff.mpr hbinds⟩) rfl
  · rintro ⟨before, piece, after, rfl, hpiece, hlast⟩
    have hpiece : binding? piece = some (name, v) := binding?_eq_some_iff.mpr hpiece
    refine ⟨before.filterMap binding?, after.filterMap binding?, ?_, ?_⟩
    · rw [List.filterMap_append, List.filterMap_cons_some hpiece]
    · rintro e he rfl
      obtain ⟨piece', hmem, hread⟩ := List.mem_filterMap.mp he
      exact hlast piece' hmem e.2 (binding?_eq_some_iff.mp hread)

/-- An input is read if its pieces are blank or bindings, and then it says what they say. -/
theorem readInput_eq_ok {bindings : List (String × Int64)} (h : readInput s = .ok bindings) :
    Bindings (Text.pieces ',' s) ∧
      ∀ name v, (Assignment.ofList bindings).get? name = some v ↔
        BindsLast (Text.pieces ',' s) name v := by
  rw [readInput_eq] at h
  refine ⟨bindings_iff.mpr (exists_filter_mapM_eq_ok_iff.mp ⟨_, h⟩), fun name v => ?_⟩
  -- a blank piece is no binding, so what is read is what all the pieces bind
  have hbindings : bindings = (Text.pieces ',' s).filterMap binding? := by
    refine eq_filterMap_of_mapM (fun piece _ hkeep => ?_) h
    exact binding?_of_blank (not_not.mp fun hblank => by simp [isEmpty_trim.mpr hblank] at hkeep)
  rw [hbindings]
  exact get?_ofList_filterMap_iff

theorem exists_readInput_eq_ok (h : Bindings (Text.pieces ',' s)) :
    ∃ bindings, readInput s = .ok bindings := by
  rw [readInput_eq]
  exact exists_filter_mapM_eq_ok_iff.mpr (bindings_iff.mp h)

theorem Misbinds.not_blank (h : Misbinds piece flaw) : ¬ Blank piece := by
  rw [← Text.trim_eq_nil_iff]
  cases h with
  | notABinding htrims hne => exact htrims.trim_eq ▸ hne
  | badValue hcut =>
    exact fun htrim => not_blank_of_mem (by simp [hcut.1]) (Text.trim_eq_nil_iff.mp htrim)

/-- The first piece that is neither blank nor a binding is to blame. -/
theorem readInput_eq_error_iff :
    readInput s = .error flaw ↔
      ∃ before piece after, Text.pieces ',' s = before ++ piece :: after ∧ Bindings before ∧
        Misbinds piece flaw := by
  rw [readInput_eq, filter_mapM_eq_error_iff]
  refine exists_congr fun before => exists_congr fun piece => exists_congr fun after => ?_
  rw [bindings_iff, isEmpty_trim]
  refine and_congr_right fun _ => and_congr_right fun _ => ?_
  exact ⟨fun ⟨hblank, h⟩ => (readBinding_eq_error_iff hblank).mp h,
    fun h => ⟨h.not_blank, (readBinding_eq_error_iff h.not_blank).mpr h⟩⟩

/-! ## Lines -/

theorem Parts.arrow (h : Parts line pieces output) : ['-', '>'] <:+: line.toList := by
  obtain ⟨input, hcut, -⟩ := h
  exact ⟨input, output, hcut.1.symm⟩

theorem parts_iff {input : List Char} (h : FirstCut ['-', '>'] line.toList input output)
    {output' : List Char} :
    Parts line pieces output' ↔ pieces = Text.pieces ',' input ∧ output' = output := by
  constructor
  · rintro ⟨input', h', hsplit⟩
    obtain ⟨rfl, rfl⟩ := h.unique h'
    exact ⟨(Text.pieces_eq_iff.mpr hsplit).symm, rfl⟩
  · rintro ⟨rfl, rfl⟩
    exact ⟨input, h, Text.pieces_eq_iff.mp rfl⟩

theorem readParts_of_no_arrow (h : ¬ ['-', '>'] <:+: line.toList) :
    readParts line.toList = .error .missingArrow := by
  rw [readParts, Text.cut?_eq_none_iff.mpr h]

theorem readParts_of_cut {input : List Char} (h : FirstCut ['-', '>'] line.toList input output) :
    readParts line.toList
      = match Text.readInt64 (Text.trim output) with
        | .error reason => .error (.badOutput reason)
        | .ok v => (readInput input).map fun bindings => ⟨.ofList bindings, v⟩ := by
  rw [readParts, Text.cut?_eq_some_iff.mpr h]
  dsimp only
  cases Text.readInt64 (Text.trim output) with
  | error reason => rfl
  | ok v => cases readInput input <;> rfl

theorem exists_firstCut_arrow (h : ['-', '>'] <:+: line.toList) :
    ∃ input output, FirstCut ['-', '>'] line.toList input output := by
  cases hcut : Text.cut? ['-', '>'] line.toList with
  | none => exact absurd h (Text.cut?_eq_none_iff.mp hcut)
  | some cut => exact ⟨cut.1, cut.2, Text.cut?_eq_some_iff.mp hcut⟩

theorem says_of_readParts {e : Example} (h : readParts line.toList = .ok e) : Says line e := by
  by_cases harrow : ['-', '>'] <:+: line.toList
  · obtain ⟨input, output, hcut⟩ := exists_firstCut_arrow harrow
    rw [readParts_of_cut hcut] at h
    cases houtput : Text.readInt64 (Text.trim output) with
    | error reason => simp [houtput] at h
    | ok v =>
      cases hinput : readInput input with
      | error flaw => simp [houtput, hinput, Except.map] at h
      | ok bindings =>
        rw [houtput, hinput] at h
        obtain rfl := Except.ok.inj h
        have ⟨hbindings, hlast⟩ := readInput_eq_ok hinput
        exact ⟨_, output, (parts_iff hcut).mpr ⟨rfl, rfl⟩, denotes_iff.mpr houtput, hbindings, hlast⟩
  · rw [readParts_of_no_arrow harrow] at h
    cases h

theorem exists_readParts_of_formatted (h : Formatted line) :
    ∃ e, readParts line.toList = .ok e := by
  obtain ⟨pieces, output, hparts, ⟨v, hv⟩, hbindings⟩ := h
  obtain ⟨input, output', hcut⟩ := exists_firstCut_arrow hparts.arrow
  obtain ⟨rfl, rfl⟩ := (parts_iff hcut).mp hparts
  obtain ⟨bindings, hread⟩ := exists_readInput_eq_ok hbindings
  rw [readParts_of_cut hcut, denotes_iff.mp hv, hread]
  exact ⟨_, rfl⟩

theorem Says.formatted {e : Example} (h : Says line e) : Formatted line := by
  obtain ⟨pieces, output, hparts, houtput, hbindings, -⟩ := h
  exact ⟨pieces, output, hparts, ⟨_, houtput⟩, hbindings⟩

/-- A line says one thing at most. -/
theorem Says.unique {e e' : Example} (h : Says line e) (h' : Says line e') : e = e' := by
  obtain ⟨pieces, output, hparts, houtput, -, hget⟩ := h
  obtain ⟨pieces', output', hparts', houtput', -, hget'⟩ := h'
  obtain ⟨input, _, hcut⟩ := exists_firstCut_arrow hparts.arrow
  obtain ⟨rfl, rfl⟩ := (parts_iff hcut).mp hparts
  obtain ⟨rfl, rfl⟩ := (parts_iff hcut).mp hparts'
  have hv : e.output = e'.output :=
    Except.ok.inj ((denotes_iff.mp houtput).symm.trans (denotes_iff.mp houtput'))
  have hinput : e.input = e'.input := Assignment.ext_get? fun name =>
    Option.ext fun v => (hget name v).trans (hget' name v).symm
  cases e
  cases e'
  exact (mk.injEq ..).mpr ⟨hinput, hv⟩

theorem readParts_eq_ok_iff {e : Example} : readParts line.toList = .ok e ↔ Says line e := by
  refine ⟨says_of_readParts, fun h => ?_⟩
  obtain ⟨e', he'⟩ := exists_readParts_of_formatted h.formatted
  rw [he', (says_of_readParts he').unique h]

/-- The first problem of a line with an arrow is that of its output, or else that of its input. -/
theorem problem_iff {input : List Char} (h : FirstCut ['-', '>'] line.toList input output) :
    Problem line flaw ↔
      (∃ reason, Text.readInt64 (Text.trim output) = .error reason ∧ flaw = .badOutput reason) ∨
        (∃ v, Text.readInt64 (Text.trim output) = .ok v) ∧ readInput input = .error flaw := by
  have hparts : Parts line (Text.pieces ',' input) output := (parts_iff h).mpr ⟨rfl, rfl⟩
  constructor
  · intro hproblem
    cases hproblem with
    | missingArrow hnot => exact absurd hparts.arrow hnot
    | badOutput hparts' htrims hreason =>
      obtain ⟨rfl, rfl⟩ := (parts_iff h).mp hparts'
      rw [← htrims.trim_eq, ← Text.readInt64_eq_error_iff] at hreason
      exact .inl ⟨_, hreason, rfl⟩
    | badPiece hparts' hv hbefore hpiece =>
      obtain ⟨hpieces, rfl⟩ := (parts_iff h).mp hparts'
      exact .inr ⟨⟨_, denotes_iff.mp hv⟩,
        readInput_eq_error_iff.mpr ⟨_, _, _, hpieces.symm, hbefore, hpiece⟩⟩
  · rintro (⟨reason, hread, rfl⟩ | ⟨⟨v, hv⟩, hinput⟩)
    · exact .badOutput hparts (Text.trims_trim output) (Text.readInt64_eq_error_iff.mp hread)
    · obtain ⟨before, piece, after, heq, hbefore, hpiece⟩ := readInput_eq_error_iff.mp hinput
      exact .badPiece (heq ▸ hparts) (denotes_iff.mpr hv) hbefore hpiece

theorem readParts_eq_error_iff : readParts line.toList = .error flaw ↔ Problem line flaw := by
  by_cases harrow : ['-', '>'] <:+: line.toList
  · obtain ⟨input, output, hcut⟩ := exists_firstCut_arrow harrow
    rw [readParts_of_cut hcut, problem_iff hcut]
    cases Text.readInt64 (Text.trim output) with
    | error reason => simp [eq_comm]
    | ok v => cases readInput input <;> simp [Except.map]
  · rw [readParts_of_no_arrow harrow]
    refine ⟨fun h => Except.error.inj h ▸ .missingArrow harrow, fun h => ?_⟩
    cases h with
    | missingArrow => rfl
    | badOutput hparts => exact absurd hparts.arrow harrow
    | badPiece hparts => exact absurd hparts.arrow harrow

theorem read_eq_ok_iff {e : Example} : read line = .ok e ↔ Says line e := by
  rw [← readParts_eq_ok_iff, read]
  cases readParts line.toList <;> simp [Except.mapError]

theorem read_eq_error_iff {err : ReadError} :
    read line = .error err ↔ err.line = line ∧ Problem line err.flaw := by
  rw [← readParts_eq_error_iff, read]
  obtain ⟨line', flaw⟩ := err
  cases readParts line.toList <;> simp [Except.mapError, eq_comm]

/-! ## Texts -/

theorem readAll_eq (text : String) :
    readAll text = ((Text.lines text.toList).filter (¬ Blank ·)).mapM
      fun line => read (String.ofList line) := by
  have hkeep : (fun line => !(Text.trim line).isEmpty) = fun line => decide (¬ Blank line) :=
    funext fun line => Bool.eq_iff_iff.mpr (isEmpty_trim.trans decide_eq_true_iff.symm)
  rw [readAll, hkeep]

/-- The reader accepts exactly the format. A line is read if it has the form of an example, as the
example that it is; if not, the error has the line and its first problem. A text is read if each
of its lines is blank or an example, as the list of these examples in the order of their lines; if
not, the error is that of the first line that is neither. -/
theorem reads_exactly_the_format :
    (∀ line, (∃ e, read line = .ok e) ↔ Formatted line) ∧
    (∀ line e, read line = .ok e ↔ Says line e) ∧
    (∀ line err, read line = .error err ↔ err.line = line ∧ Problem line err.flaw) ∧
    (∀ text, (∃ es, readAll text = .ok es) ↔
      ∃ lines, Lines text.toList lines ∧
        ∀ line ∈ lines, Blank line ∨ Formatted (String.ofList line)) ∧
    (∀ text es, readAll text = .ok es ↔
      ∃ lines, Lines text.toList lines ∧
        List.Forall₂ (fun line e => Says (String.ofList line) e) (lines.filter (¬ Blank ·)) es) ∧
    ∀ text err, readAll text = .error err ↔
      ∃ before line after, Lines text.toList (before ++ line :: after) ∧
        (∀ line' ∈ before, Blank line' ∨ Formatted (String.ofList line')) ∧ ¬ Blank line ∧
        err.line = String.ofList line ∧ Problem (String.ofList line) err.flaw := by
  have hformatted : ∀ line, (∃ e, read line = .ok e) ↔ Formatted line := fun line => by
    simp only [read_eq_ok_iff]
    refine ⟨fun ⟨e, h⟩ => h.formatted, fun h => ?_⟩
    obtain ⟨e, he⟩ := exists_readParts_of_formatted h
    exact ⟨e, says_of_readParts he⟩
  refine ⟨hformatted, fun _ _ => read_eq_ok_iff, fun _ _ => read_eq_error_iff, fun text => ?_,
    fun text es => ?_, fun text err => ?_⟩
  · rw [readAll_eq, exists_filter_mapM_eq_ok_iff]
    simp only [hformatted, decide_eq_true_eq, ← or_iff_not_imp_left, ← Text.lines_eq_iff,
      exists_eq_left']
  · rw [readAll_eq, mapM_eq_ok_iff]
    simp only [read_eq_ok_iff, ← Text.lines_eq_iff, exists_eq_left']
  · rw [readAll_eq, filter_mapM_eq_error_iff]
    simp only [hformatted, decide_eq_true_eq, ← or_iff_not_imp_left, ← Text.lines_eq_iff,
      read_eq_error_iff]

example : read "x=1, y, z=? -> 2" = .error ⟨"x=1, y, z=? -> 2", .notABinding "y"⟩ := rfl

example : read "y -> -9223372036854775809" =
    .error ⟨"y -> -9223372036854775809", .badOutput .tooSmall⟩ := rfl

end Example

end Sygus
