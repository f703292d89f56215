import Mathlib.Data.List.DropRight
import Mathlib.Data.List.Infix
import Sygus.Text.Blank
import Sygus.Text.Cut

/-!
# What cutting and trimming give

Each way to take a text apart is described without saying how it is found: the first
occurrence of a mark, the texts between all occurrences of a character, the lines, and what
is left between the blanks at both ends. The functions give exactly what is described, so a
text can be taken apart by showing a description of it, and the reader of examples never
has to be opened down to its loops.
-/

namespace Sygus.Text

variable {mark s t before after : List Char} {c x y : Char}

/-! ## The first occurrence of a mark -/

/-- The first occurrence of `mark` in `s` stands between `before` and `after`. -/
def FirstCut (mark s before after : List Char) : Prop :=
  s = before ++ mark ++ after ∧
    ∀ before' after', s = before' ++ mark ++ after' → before.length ≤ before'.length

theorem FirstCut.unique {before' after' : List Char} (h : FirstCut mark s before after)
    (h' : FirstCut mark s before' after') : before = before' ∧ after = after' := by
  have hlength : before.length = before'.length :=
    Nat.le_antisymm (h.2 _ _ h'.1) (h'.2 _ _ h.1)
  have heq : before ++ (mark ++ after) = before' ++ (mark ++ after') := by
    rw [← List.append_assoc, ← List.append_assoc, ← h.1, ← h'.1]
  have ⟨hbefore, hafter⟩ := List.append_inj heq hlength
  exact ⟨hbefore, List.append_cancel_left hafter⟩

theorem FirstCut.cons (hmark : ¬ mark <+: c :: s) (h : FirstCut mark s before after) :
    FirstCut mark (c :: s) (c :: before) after := by
  refine ⟨by rw [h.1]; rfl, fun before' after' heq => ?_⟩
  cases before' with
  | nil => exact absurd ⟨after', heq.symm⟩ hmark
  | cons d rest =>
    have heq : s = rest ++ mark ++ after' := (List.cons.inj heq).2
    simpa using h.2 _ _ heq

/-- What the search for a mark finds is the first occurrence, and it finds one if there is one. -/
theorem cut?_spec (mark s : List Char) :
    (∃ before after, cut? mark s = some (before, after) ∧ FirstCut mark s before after) ∨
      cut? mark s = none ∧ ¬ mark <:+: s := by
  induction s with
  | nil =>
    cases mark with
    | nil => exact .inl ⟨[], [], rfl, rfl, fun _ _ _ => Nat.zero_le _⟩
    | cons m ms => exact .inr ⟨rfl, by simp⟩
  | cons c s ih =>
    rw [cut?]
    by_cases hmark : mark <+: c :: s
    · obtain ⟨after, hafter⟩ := hmark
      rw [if_pos (List.isPrefixOf_iff_prefix.mpr ⟨after, hafter⟩), ← hafter, List.drop_left]
      exact .inl ⟨[], after, rfl, rfl, fun _ _ _ => Nat.zero_le _⟩
    · rw [if_neg fun h => hmark (List.isPrefixOf_iff_prefix.mp h)]
      rcases ih with ⟨before, after, hcut, hfirst⟩ | ⟨hcut, hnone⟩
      · exact .inl ⟨c :: before, after, by rw [hcut]; rfl, hfirst.cons hmark⟩
      · exact .inr ⟨by rw [hcut]; rfl, fun h => (List.infix_cons_iff.mp h).elim hmark hnone⟩

theorem cut?_eq_some_iff : cut? mark s = some (before, after) ↔ FirstCut mark s before after := by
  rcases cut?_spec mark s with ⟨b, a, hcut, hfirst⟩ | ⟨hcut, hnone⟩
  · rw [hcut, Option.some.injEq, Prod.mk.injEq]
    refine ⟨?_, hfirst.unique⟩
    rintro ⟨rfl, rfl⟩
    exact hfirst
  · rw [hcut]
    exact ⟨(nomatch ·), fun h => absurd ⟨before, after, h.1.symm⟩ hnone⟩

theorem cut?_eq_none_iff : cut? mark s = none ↔ ¬ mark <:+: s := by
  rcases cut?_spec mark s with ⟨b, a, hcut, hfirst⟩ | ⟨hcut, hnone⟩
  · rw [hcut]
    exact ⟨(nomatch ·), fun h => absurd ⟨b, a, hfirst.1.symm⟩ h⟩
  · exact iff_of_true hcut hnone

/-- A cut is the first one if the mark does not occur in what comes before, nor where that meets
the mark itself. -/
theorem firstCut_iff (hmark : mark ≠ []) :
    FirstCut mark s before after ↔
      s = before ++ mark ++ after ∧ ¬ mark <:+: before ++ mark.dropLast := by
  have hlength : (before ++ mark.dropLast).length + 1 = (before ++ mark).length := by
    have hpos := List.length_pos_iff.mpr hmark
    simp only [List.length_append, List.length_dropLast]
    omega
  constructor
  · rintro ⟨hs, hfirst⟩
    refine ⟨hs, ?_⟩
    rintro ⟨b, a, heq⟩
    have hwhole : s = b ++ mark ++ (a ++ mark.getLast hmark :: after) := by
      rw [← List.append_assoc, heq, hs]
      conv_lhs => rw [← List.dropLast_append_getLast hmark]
      simp
    have hle := hfirst _ _ hwhole
    rw [← heq] at hlength
    simp only [List.length_append] at hlength
    omega
  · rintro ⟨hs, hnot⟩
    refine ⟨hs, fun b a heq => Nat.le_of_not_lt fun hlt => hnot ?_⟩
    -- an occurrence that begins earlier ends before the last character of this one
    have hleft : b ++ mark <+: s := ⟨a, heq.symm⟩
    have hright : before ++ mark.dropLast <+: s := by
      rw [hs, List.append_assoc, List.prefix_append_right_inj]
      exact (List.dropLast_prefix mark).trans (List.prefix_append _ _)
    have hle : (b ++ mark).length ≤ (before ++ mark.dropLast).length := by
      simp only [List.length_append] at hlength ⊢
      omega
    exact (List.suffix_append b mark).isInfix.trans
      (List.prefix_of_prefix_length_le hleft hright hle).isInfix

/-- A text is cut at the first occurrence of a character. -/
theorem firstCut_singleton_iff :
    FirstCut [x] s before after ↔ s = before ++ x :: after ∧ x ∉ before := by
  rw [firstCut_iff (List.cons_ne_nil _ _)]
  simp [List.singleton_infix_iff]

/-- No occurrence of a pair arises where two texts meet, unless one ends and the other one begins
with its characters. -/
theorem not_infix_append (hs : ¬ [x, y] <:+: s) (ht : ¬ [x, y] <:+: t)
    (h : s.getLast? ≠ some x ∨ t.head? ≠ some y) : ¬ [x, y] <:+: s ++ t := by
  rw [List.infix_append_iff]
  rintro (hoccurs | hoccurs | ⟨u, w, heq, ⟨s', hsuffix⟩, ⟨t', hstart⟩⟩)
  · exact hs hoccurs
  · exact ht hoccurs
  · match u with
    | [] => exact ht (heq ▸ ⟨[], t', hstart⟩)
    | [c] =>
      obtain ⟨rfl, rfl⟩ := List.cons.inj heq
      rcases h with h | h
      · exact h (by simp [← hsuffix])
      · exact h (by simp [← hstart])
    | c :: d :: u =>
      obtain ⟨rfl, rfl, rfl, -⟩ : x = c ∧ y = d ∧ u = [] ∧ w = [] := by simpa using heq
      exact hs ⟨s', [], by simpa using hsuffix⟩

/-- A mark of two different characters does not overlap itself, so a text is cut at its first
occurrence if there is none before. -/
theorem firstCut_pair_iff (hne : x ≠ y) :
    FirstCut [x, y] s before after ↔ s = before ++ x :: y :: after ∧ ¬ [x, y] <:+: before := by
  rw [firstCut_iff (List.cons_ne_nil _ _), List.append_assoc]
  refine and_congr_right fun _ => not_congr ⟨fun h => ?_, fun h => ?_⟩
  · have hend : ¬ [x, y] <:+: [x] := fun h => by simpa using h.length_le
    exact not_not.mp fun hnot => not_infix_append hnot hend (.inr (by simpa using hne)) h
  · exact h.trans (List.prefix_append _ _).isInfix

/-! ## The pieces between the occurrences of a character -/

/-- The pieces have no `x` in them, and `x` stands between each two of them in `s`. -/
def Split (x : Char) (s : List Char) (ps : List (List Char)) : Prop :=
  ps ≠ [] ∧ (∀ p ∈ ps, x ∉ p) ∧ [x].intercalate ps = s

theorem pieces_eq_splitOn (x : Char) (s : List Char) : pieces x s = s.splitOn x := by
  induction s with
  | nil => rfl
  | cons c s ih =>
    rw [pieces, List.splitOn_cons_eq_if_modifyHead, ih]
    simp only [beq_iff_eq]

theorem not_mem_of_mem_pieces {p : List Char} (h : p ∈ pieces x s) : x ∉ p := by
  induction s generalizing p with
  | nil => simp_all [pieces]
  | cons c s ih =>
    rw [pieces] at h
    split at h
    · rcases List.mem_cons.mp h with rfl | h
      · exact List.not_mem_nil
      · exact ih h
    · rename_i hne
      obtain ⟨q, qs, hqs⟩ := List.exists_cons_of_ne_nil
        (pieces_eq_splitOn x s ▸ List.splitOn_ne_nil x s)
      rw [hqs, List.modifyHead_cons] at h
      rw [hqs] at ih
      rcases List.mem_cons.mp h with rfl | h
      · exact fun hx => (List.mem_cons.mp hx).elim (Ne.symm hne) (ih (.head _))
      · exact ih (.tail _ h)

theorem pieces_eq_iff {ps : List (List Char)} : pieces x s = ps ↔ Split x s ps := by
  constructor
  · rintro rfl
    refine ⟨?_, fun p hp => not_mem_of_mem_pieces hp, ?_⟩
    · exact pieces_eq_splitOn x s ▸ List.splitOn_ne_nil x s
    · rw [pieces_eq_splitOn]
      exact List.intercalate_splitOn x
  · rintro ⟨hne, hmem, rfl⟩
    rw [pieces_eq_splitOn]
    exact List.splitOn_intercalate x hmem hne

theorem infix_intercalate {p mark : List Char} {ps : List (List Char)} (h : p ∈ ps) :
    p <:+: mark.intercalate ps := by
  induction ps with
  | nil => cases h
  | cons q qs ih =>
    cases qs with
    | nil =>
      obtain rfl := List.mem_singleton.mp h
      exact ⟨[], [], by simp⟩
    | cons q' qs =>
      rw [List.intercalate_cons_cons]
      rcases List.mem_cons.mp h with rfl | h
      · exact ⟨[], mark ++ mark.intercalate (q' :: qs), by simp⟩
      · exact (ih h).trans (List.suffix_append _ _).isInfix

theorem pieces_append_cons (h : x ∉ before) :
    pieces x (before ++ x :: after) = before :: pieces x after := by
  simp only [pieces_eq_splitOn, List.splitOn_append_cons_self_of_not_mem h]

theorem pieces_of_not_mem (h : x ∉ s) : pieces x s = [s] := by
  rw [pieces_eq_splitOn, List.splitOn_eq_singleton h]

/-! ## Lines -/

/-- The lines of a text: each but perhaps the last one is ended by a line feed or by a carriage
return and a line feed, and only a last one that is not ended keeps its carriage return. -/
inductive Lines : List Char → List (List Char) → Prop
  | nil : Lines [] []
  | last {line} (hne : line ≠ []) (h : '\n' ∉ line) : Lines line [line]
  | feed {line s lines} (h : '\n' ∉ line) (hreturn : line.getLast? ≠ some '\r')
      (hrest : Lines s lines) : Lines (line ++ '\n' :: s) (line :: lines)
  | returnFeed {line s lines} (h : '\n' ∉ line) (hrest : Lines s lines) :
      Lines (line ++ '\r' :: '\n' :: s) (line :: lines)

theorem lines_append_cons (h : '\n' ∉ before) :
    lines (before ++ '\n' :: after) = dropReturn before :: lines after := by
  rw [lines, pieces_append_cons h, lines]
  exact linesOfPieces.eq_3 before (pieces '\n' after)
    (pieces_eq_splitOn '\n' after ▸ List.splitOn_ne_nil '\n' after)

theorem lines_of_not_mem (hne : s ≠ []) (h : '\n' ∉ s) : lines s = [s] := by
  rw [lines, pieces_of_not_mem h, linesOfPieces, if_neg (by simpa using hne)]

theorem dropReturn_of_getLast?_ne (h : s.getLast? ≠ some '\r') : dropReturn s = s := if_neg h

theorem dropReturn_concat (s : List Char) : dropReturn (s ++ ['\r']) = s := by simp [dropReturn]

/-- A piece before a line feed ends in a carriage return, which belongs to the line end, or is
the line. -/
theorem Lines.cons_piece {ls : List (List Char)} (h : '\n' ∉ before) (hrest : Lines after ls) :
    Lines (before ++ '\n' :: after) (dropReturn before :: ls) := by
  by_cases hreturn : before.getLast? = some '\r'
  · obtain ⟨line, rfl⟩ := List.getLast?_eq_some_iff.mp hreturn
    rw [dropReturn_concat, List.append_assoc]
    exact .returnFeed (fun hmem => h (List.mem_append_left _ hmem)) hrest
  · rw [dropReturn_of_getLast?_ne hreturn]
    exact .feed h hreturn hrest

theorem lines_eq_iff {ls : List (List Char)} : lines s = ls ↔ Lines s ls := by
  constructor
  · rintro rfl
    -- the text is taken off line by line, so the induction is on its length
    induction hn : s.length using Nat.strongRecOn generalizing s with
    | ind n ih =>
      by_cases hmem : '\n' ∈ s
      · obtain ⟨before, after, rfl, hbefore⟩ := List.eq_append_cons_of_mem hmem
        rw [lines_append_cons hbefore]
        refine .cons_piece hbefore (ih after.length ?_ rfl)
        rw [← hn, List.length_append, List.length_cons]
        omega
      · by_cases hne : s = []
        · subst hne
          exact .nil
        · rw [lines_of_not_mem hne hmem]
          exact .last hne hmem
  · intro h
    induction h with
    | nil => rfl
    | last hne h => exact lines_of_not_mem hne h
    | feed h hreturn _ ih => rw [lines_append_cons h, dropReturn_of_getLast?_ne hreturn, ih]
    | @returnFeed line s ls h _ ih =>
      rw [List.append_cons, lines_append_cons (by simpa using h), dropReturn_concat, ih]

theorem Lines.not_mem {ls : List (List Char)} (h : Lines s ls) {line : List Char}
    (hline : line ∈ ls) : '\n' ∉ line := by
  induction h with
  | nil => cases hline
  | last _ h => exact List.mem_singleton.mp hline ▸ h
  | feed h _ _ ih => exact (List.mem_cons.mp hline).elim (fun heq => heq ▸ h) ih
  | returnFeed h _ ih => exact (List.mem_cons.mp hline).elim (fun heq => heq ▸ h) ih

/-- Lines with line feeds between them are these lines again, if each has something in it, no
line feed, and no carriage return at its end. -/
theorem lines_intercalate {ls : List (List Char)}
    (h : ∀ line ∈ ls, line ≠ [] ∧ '\n' ∉ line ∧ line.getLast? ≠ some '\r') :
    Lines (['\n'].intercalate ls) ls := by
  induction ls with
  | nil => exact .nil
  | cons line ls ih =>
    have ⟨⟨hne, hfeed, hreturn⟩, hrest⟩ := List.forall_mem_cons.mp h
    cases ls with
    | nil =>
      rw [List.intercalate_singleton]
      exact .last hne hfeed
    | cons line' ls =>
      rw [List.intercalate_cons_cons, List.append_assoc]
      exact .feed hfeed hreturn (ih hrest)

/-! ## Trimming -/

/-- The text has nothing but blanks. -/
def Blank (s : List Char) : Prop := ∀ c ∈ s, isBlank c = true

-- Only the characters of the text are looked at, not every character there is.
instance : DecidablePred Blank := fun s => List.decidableBAll (isBlank · = true) s

/-- No blank stands at either end. -/
def Bare (s : List Char) : Prop :=
  (∀ c ∈ s.head?, isBlank c = false) ∧ ∀ c ∈ s.getLast?, isBlank c = false

instance : DecidablePred Bare := fun s =>
  @instDecidableAnd _ _ (Option.decidableForallMem s.head?) (Option.decidableForallMem s.getLast?)

/-- `t` is `s` without the blanks at both ends. -/
def Trims (s t : List Char) : Prop :=
  Bare t ∧ ∃ left right, Blank left ∧ Blank right ∧ s = left ++ t ++ right

theorem blank_nil : Blank [] := List.forall_mem_nil _

theorem Blank.dropWhile_append {left : List Char} (h : Blank left) (s : List Char) :
    (left ++ s).dropWhile isBlank = s.dropWhile isBlank := List.dropWhile_append_of_pos h

theorem Blank.trimEnd_append {right : List Char} (h : Blank right) (s : List Char) :
    trimEnd (s ++ right) = trimEnd s := by
  rw [trimEnd, List.reverse_append,
    Blank.dropWhile_append (fun c hc => h c (List.mem_reverse.mp hc)), trimEnd]

theorem dropWhile_of_head? (h : ∀ c ∈ s.head?, isBlank c = false) : s.dropWhile isBlank = s := by
  cases s with
  | nil => rfl
  | cons c s => rw [List.dropWhile_cons_of_neg (by simpa using h)]

theorem trimEnd_of_getLast? (h : ∀ c ∈ s.getLast?, isBlank c = false) : trimEnd s = s := by
  rw [trimEnd, dropWhile_of_head? (by simpa using h), List.reverse_reverse]

theorem Trims.trim_eq (h : Trims s t) : trim s = t := by
  obtain ⟨⟨hhead, hlast⟩, left, right, hleft, hright, rfl⟩ := h
  rw [trim, List.append_assoc, hleft.dropWhile_append]
  cases t with
  | nil =>
    rw [List.nil_append, List.dropWhile_eq_nil_iff.mpr hright]
    rfl
  | cons c t =>
    rw [dropWhile_of_head? (by simpa using hhead), hright.trimEnd_append,
      trimEnd_of_getLast? hlast]

theorem trims_trim (s : List Char) : Trims s (trim s) := by
  have hbody : trim s ++ (s.dropWhile isBlank).rtakeWhile isBlank = s.dropWhile isBlank :=
    List.rdropWhile_append_rtakeWhile
  refine ⟨⟨fun c hc => ?_, fun c hc => ?_⟩, s.takeWhile isBlank,
    (s.dropWhile isBlank).rtakeWhile isBlank, fun c => List.mem_takeWhile_imp,
    fun c => List.mem_rtakeWhile_imp, ?_⟩
  · have hhead : c ∈ (s.dropWhile isBlank).head? :=
      hbody ▸ List.mem_head?_append_of_mem_head? hc
    simpa [Option.mem_def.mp hhead] using List.head?_dropWhile_not isBlank s
  · obtain ⟨hne, rfl⟩ := List.mem_getLast?_eq_getLast hc
    exact Bool.eq_false_iff.mpr (List.rdropWhile_last_not isBlank _ hne)
  · rw [List.append_assoc, hbody, List.takeWhile_append_dropWhile]

theorem trim_eq_iff : trim s = t ↔ Trims s t :=
  ⟨fun h => h ▸ trims_trim s, Trims.trim_eq⟩

theorem trim_eq_nil_iff : trim s = [] ↔ Blank s := by
  rw [trim_eq_iff]
  constructor
  · rintro ⟨-, left, right, hleft, hright, rfl⟩
    simpa [Blank, or_imp, forall_and] using ⟨hleft, hright⟩
  · exact fun h => ⟨⟨nofun, nofun⟩, s, [], h, blank_nil, by simp⟩

theorem Bare.trims (h : Bare s) : Trims s s := ⟨h, [], [], blank_nil, blank_nil, by simp⟩

/-- Blanks at the ends make no difference. -/
theorem trim_append {left right : List Char} (hleft : Blank left) (hright : Blank right)
    (s : List Char) : trim (left ++ s ++ right) = trim s := by
  obtain ⟨hbare, left', right', hleft', hright', hs⟩ := trims_trim s
  refine Trims.trim_eq ⟨hbare, left ++ left', right' ++ right, ?_, ?_, ?_⟩
  · simpa [Blank, or_imp, forall_and] using ⟨hleft, hleft'⟩
  · simpa [Blank, or_imp, forall_and] using ⟨hright', hright⟩
  · conv_lhs => rw [hs]
    simp

end Sygus.Text
