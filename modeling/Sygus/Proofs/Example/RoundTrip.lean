import Sygus.Proofs.Example.Format

/-!
# Examples survive being written

An example is written with its names in ascending order, `, ` between bindings and ` -> ` before
the output. None of these separators can be mistaken for another one, whatever else is in the
names, as long as these are such as the reader gives. So what has been read, written and read
again is the same (`round_trips`), line by line and as a whole text.
-/

namespace Sygus

open Text (FirstCut Split Lines Trims Blank Bare Literal)

namespace Assignment

variable {entries : List (String × Int64)} {name : String}

theorem insertEntry_of_lt {v : Int64} (h : ∀ e ∈ entries, e.1 < name) :
    insertEntry name v entries = entries ++ [(name, v)] := by
  induction entries with
  | nil => rfl
  | cons e rest ih =>
    have ⟨hlt, hrest⟩ := List.forall_mem_cons.mp h
    have hne : name ≠ e.1 := fun heq => String.lt_irrefl name (by rwa [← heq] at hlt)
    rw [insertEntry, if_neg (String.lt_asymm hlt), if_neg hne, ih hrest, List.cons_append]

/-- An assignment is made of its own entries. -/
theorem ofList_entries (a : Assignment) : ofList a.entries = a := by
  obtain ⟨entries, h⟩ := a
  induction entries using List.reverseRecOn with
  | nil => rfl
  | append_singleton entries e ih =>
    have ⟨hentries, _, hlt⟩ := List.pairwise_append.mp h
    rw [ofList_concat, ih hentries, insert, mk.injEq]
    exact insertEntry_of_lt fun e' he' => hlt e' he' e (.head _)

end Assignment

namespace Example

variable {s t : List Char} {b : String × Int64} {bs : List (String × Int64)} {e : Example}

/-! ## Names -/

/-- A name that a line can carry: no separator is in it and no blank at its ends. It may be
empty. -/
structure Plain (name : String) : Prop where
  comma : ',' ∉ name.toList
  equals : '=' ∉ name.toList
  arrow : ¬ ['-', '>'] <:+: name.toList
  bare : Bare name.toList

instance : DecidablePred Plain := fun name =>
  decidable_of_iff (',' ∉ name.toList ∧ '=' ∉ name.toList ∧ ¬ ['-', '>'] <:+: name.toList ∧
    Bare name.toList) ⟨fun ⟨h, h', h'', h'''⟩ => ⟨h, h', h'', h'''⟩,
      fun h => ⟨h.comma, h.equals, h.arrow, h.bare⟩⟩

/-- The names that a line gives a value are such names, and parts of the line. -/
theorem Says.plain {line : String} (h : Says line e) (hb : b ∈ e.input.entries) :
    Plain b.1 ∧ b.1.toList <:+: line.toList := by
  obtain ⟨pieces, output, ⟨input, hcut, hne, hcomma, hinput⟩, -, -, hget⟩ := h
  obtain ⟨before, piece, after, rfl, ⟨left, right, hbinds, ⟨hbare, l, r, -, -, hleft⟩, -⟩, -⟩ :=
    (hget b.1 b.2).mp (Assignment.get?_eq_some_iff.mpr hb)
  have ⟨hpiece, hequals⟩ := Text.firstCut_singleton_iff.mp hbinds
  have ⟨hline, harrow⟩ := (Text.firstCut_pair_iff (by decide)).mp hcut
  have hname : b.1.toList <:+: left := ⟨l, r, hleft.symm⟩
  have hinpiece : b.1.toList <:+: piece := hname.trans ⟨[], '=' :: right, hpiece.symm⟩
  have hininput : b.1.toList <:+: input := hinpiece.trans (hinput ▸ Text.infix_intercalate (by simp))
  refine ⟨⟨?_, ?_, ?_, hbare⟩, ?_⟩
  · exact fun hmem => hcomma piece (by simp) (hinpiece.subset hmem)
  · exact fun hmem => hequals (hname.subset hmem)
  · exact fun hoccurs => harrow (hoccurs.trans hininput)
  · exact hininput.trans ⟨[], '-' :: '>' :: output, hline.symm⟩

/-! ## One binding -/

/-- The characters of a binding. -/
def bindingChars (b : String × Int64) : List Char :=
  b.1.toList ++ '=' :: Text.writeInteger b.2.toInt

theorem bindingText_toList (b : String × Int64) : (bindingText b).toList = bindingChars b := by
  simp [bindingText, bindingChars, Text.writeInt64]

theorem writeInteger_ne_nil (n : Int) : Text.writeInteger n ≠ [] := by
  rw [Text.writeInteger]
  split
  · exact List.cons_ne_nil _ _
  · exact Nat.toDigits_ne_nil

theorem bare_writeInteger (n : Int) : Bare (Text.writeInteger n) :=
  ⟨fun _ hc => Text.isBlank_of_mem_writeInteger (List.mem_of_mem_head? hc),
    fun _ hc => Text.isBlank_of_mem_writeInteger (List.mem_of_mem_getLast? hc)⟩

/-- No separator is in an integer. -/
theorem not_mem_writeInteger {n : Int} {c : Char} (hdigit : c.isDigit = false) (hne : c ≠ '-') :
    c ∉ Text.writeInteger n :=
  fun h => (Text.mem_writeInteger h).elim (fun hc => by simp [hdigit] at hc) hne

theorem comma_not_mem_bindingChars (h : Plain b.1) : ',' ∉ bindingChars b := by
  simp [bindingChars, h.comma, not_mem_writeInteger (c := ',') rfl (by decide)]

theorem no_arrow_bindingChars (h : Plain b.1) : ¬ ['-', '>'] <:+: bindingChars b := by
  refine Text.not_infix_append h.arrow ?_ (.inr (by simp))
  -- behind the name there is no `>`, since an integer has none
  intro hoccurs
  have hmem : '>' ∈ '=' :: Text.writeInteger b.2.toInt := hoccurs.subset (by simp)
  simp [not_mem_writeInteger (c := '>') rfl (by decide)] at hmem

/-- No blank is at the end of a binding. -/
theorem bare_bindingChars (h : Plain b.1) : Bare (bindingChars b) := by
  constructor
  · intro c hc
    cases hname : b.1.toList with
    -- without a name, the binding begins with its `=`
    | nil =>
      obtain rfl : c = '=' := by simpa [bindingChars, hname, eq_comm] using hc
      decide
    | cons d ds => exact h.bare.1 c (by simpa [bindingChars, hname] using hc)
  · rw [bindingChars, List.append_cons, List.getLast?_append_of_ne_nil _ (writeInteger_ne_nil _)]
    exact (bare_writeInteger b.2.toInt).2

/-- An integer with blanks around it denotes its value. -/
theorem denotes_writeInteger (v : Int64) (left : List Char) (hleft : Blank left) :
    Denotes (left ++ Text.writeInteger v.toInt) v :=
  ⟨_, ⟨bare_writeInteger v.toInt, left, [], hleft, Text.blank_nil, by simp⟩,
    Text.literal_writeInteger v.toInt⟩

/-- A binding is read as what it binds. -/
theorem readBinding_bindingChars (h : Plain b.1) : readBinding (bindingChars b) = .ok b := by
  have hbinds : Binds (bindingChars b) b.1 b.2 :=
    ⟨b.1.toList, Text.writeInteger b.2.toInt, Text.firstCut_singleton_iff.mpr ⟨rfl, h.equals⟩,
      h.bare.trims, denotes_writeInteger b.2 [] Text.blank_nil⟩
  rw [← readBinding_eq_ok_iff, (bare_bindingChars h).trims.trim_eq] at hbinds
  exact hbinds

/-! ## An input -/

theorem inputText_singleton (b : String × Int64) : (inputText [b]).toList = bindingChars b :=
  bindingText_toList b

theorem inputText_cons (b b' : String × Int64) (bs : List (String × Int64)) :
    (inputText (b :: b' :: bs)).toList
      = bindingChars b ++ ',' :: ' ' :: (inputText (b' :: bs)).toList := by
  simp [inputText, bindingText_toList]

/-- No arrow is in an input, nor where it meets the arrow after it. -/
theorem no_arrow_inputText (h : ∀ b ∈ bs, Plain b.1) :
    ¬ ['-', '>'] <:+: (inputText bs).toList ++ [' '] := by
  have hblank : ¬ ['-', '>'] <:+: [' '] := by decide
  induction bs with
  | nil => exact hblank
  | cons b bs ih =>
    have ⟨hb, hbs⟩ := List.forall_mem_cons.mp h
    have hbinding := no_arrow_bindingChars hb
    cases bs with
    | nil =>
      rw [inputText_singleton]
      exact Text.not_infix_append hbinding hblank (.inr (by decide))
    | cons b' bs =>
      have hrest := Text.not_infix_append (s := [',', ' ']) (by decide) (ih hbs)
        (.inl (by decide))
      rw [inputText_cons, List.append_assoc]
      exact Text.not_infix_append hbinding hrest (.inr (by simp))

/-- Trimmed, the pieces of an input are its bindings. Every piece but the first one begins with
the blank after its comma, and the last one ends with the blank before the arrow. -/
theorem map_trim_pieces {lead : List Char} (hlead : Blank lead) (h : ∀ b' ∈ b :: bs, Plain b'.1) :
    (Text.pieces ',' (lead ++ (inputText (b :: bs)).toList ++ [' '])).map Text.trim
      = (b :: bs).map bindingChars := by
  have hcomma : ',' ∉ lead := fun hmem => absurd (hlead ',' hmem) (by decide)
  have hspace : Blank [' '] := by decide
  have ⟨hb, hbs⟩ := List.forall_mem_cons.mp h
  have hnot := comma_not_mem_bindingChars hb
  induction bs generalizing b lead with
  | nil =>
    rw [inputText_singleton, Text.pieces_of_not_mem (by simp [hcomma, hnot]), List.map_singleton,
      Text.trim_append hlead hspace, (bare_bindingChars hb).trims.trim_eq, List.map_singleton]
  | cons b' bs ih =>
    have hpiece : Text.trim (lead ++ bindingChars b) = bindingChars b := by
      simpa [(bare_bindingChars hb).trims.trim_eq]
        using Text.trim_append hlead Text.blank_nil (bindingChars b)
    have ⟨hb', hbs'⟩ := List.forall_mem_cons.mp hbs
    have hrest := ih hspace hbs (by decide) hb' hbs' (comma_not_mem_bindingChars hb')
    have hcut : lead ++ (inputText (b :: b' :: bs)).toList ++ [' ']
        = (lead ++ bindingChars b) ++ ',' :: ([' '] ++ (inputText (b' :: bs)).toList ++ [' ']) := by
      simp [inputText_cons]
    rw [hcut, Text.pieces_append_cons (by simp [hcomma, hnot]), List.map_cons, hpiece, hrest]
    rfl

/-- An input is read as its bindings. -/
theorem readInput_inputText (h : ∀ b ∈ bs, Plain b.1) :
    readInput ((inputText bs).toList ++ [' ']) = .ok bs := by
  cases bs with
  | nil => rfl
  | cons b bs =>
    rw [readInput]
    have hpieces := map_trim_pieces Text.blank_nil h
    rw [List.nil_append] at hpieces
    rw [hpieces, List.filter_eq_self.mpr, mapM_eq_ok_iff, List.forall₂_map_left_iff,
      List.forall₂_same]
    · exact fun b' hb' => readBinding_bindingChars (h b' hb')
    · intro s hs
      obtain ⟨b', -, rfl⟩ := List.mem_map.mp hs
      simp [bindingChars]

/-! ## An example -/

theorem text_toList (e : Example) :
    e.text.toList = ((inputText e.input.entries).toList ++ [' '])
      ++ '-' :: '>' :: ([' '] ++ Text.writeInteger e.output.toInt) := by
  simp [text, Text.writeInt64]

theorem read_text (h : ∀ b ∈ e.input.entries, Plain b.1) : read e.text = .ok e := by
  have hcut := (Text.firstCut_pair_iff (by decide)).mpr ⟨text_toList e, no_arrow_inputText h⟩
  have houtput := denotes_iff.mp (denotes_writeInteger e.output [' '] (by decide))
  rw [read, readParts_of_cut hcut, houtput, readInput_inputText h]
  simp [Except.map, Except.mapError, Assignment.ofList_entries]

theorem newline_not_mem_inputText (h : ∀ b ∈ bs, '\n' ∉ b.1.toList) :
    '\n' ∉ (inputText bs).toList := by
  have hinteger : ∀ v : Int64, '\n' ∉ Text.writeInteger v.toInt :=
    fun v => not_mem_writeInteger rfl (by decide)
  induction bs with
  | nil => exact List.not_mem_nil
  | cons b bs ih =>
    have ⟨hb, hbs⟩ := List.forall_mem_cons.mp h
    cases bs with
    | nil => simp [inputText_singleton, bindingChars, hb, hinteger]
    | cons b' bs => simp [inputText_cons, bindingChars, hb, hinteger, ih hbs]

/-- An example is written on a line of its own. -/
theorem text_isLine (h : ∀ b ∈ e.input.entries, '\n' ∉ b.1.toList) :
    e.text.toList ≠ [] ∧ '\n' ∉ e.text.toList ∧ e.text.toList.getLast? ≠ some '\r' := by
  refine ⟨by simp [text_toList], ?_, fun hlast => ?_⟩
  · simp [text_toList, newline_not_mem_inputText h, not_mem_writeInteger (c := '\n') rfl (by decide)]
  · have hwhole : e.text.toList = ((inputText e.input.entries).toList ++ [' ', '-', '>', ' '])
        ++ Text.writeInteger e.output.toInt := by simp [text_toList]
    rw [hwhole, List.getLast?_append_of_ne_nil _ (writeInteger_ne_nil _)] at hlast
    exact absurd ((bare_writeInteger e.output.toInt).2 '\r' hlast) (by decide)

theorem text_not_blank (e : Example) : ¬ Blank e.text.toList :=
  fun h => absurd (h '-' (by simp [text_toList])) (by decide)

/-! ## A text -/

theorem readAll_texts {es : List Example}
    (h : ∀ e ∈ es, ∀ b ∈ e.input.entries, Plain b.1 ∧ '\n' ∉ b.1.toList) :
    readAll ("\n".intercalate (es.map text)) = .ok es := by
  have hlines : Lines ("\n".intercalate (es.map text)).toList (es.map fun e => e.text.toList) := by
    rw [String.toList_intercalate, List.map_map]
    refine Text.lines_intercalate fun line hline => ?_
    obtain ⟨e, he, rfl⟩ := List.mem_map.mp hline
    exact text_isLine fun b hb => (h e he b hb).2
  rw [readAll_eq, Text.lines_eq_iff.mpr hlines, List.filter_eq_self.mpr, mapM_eq_ok_iff,
    List.forall₂_map_left_iff, List.forall₂_same]
  · intro e he
    rw [String.ofList_toList]
    exact read_text fun b hb => (h e he b hb).1
  · intro line hline
    obtain ⟨e, -, rfl⟩ := List.mem_map.mp hline
    exact decide_eq_true (text_not_blank e)

/-- What is read from a text is read from its lines. -/
theorem exists_line_of_readAll {text : String} {es : List Example} (h : readAll text = .ok es)
    (he : e ∈ es) : ∃ line, '\n' ∉ line ∧ read (String.ofList line) = .ok e := by
  rw [readAll_eq, mapM_eq_ok_iff] at h
  obtain ⟨line, hline, hread⟩ := exists_of_forall₂ h.flip he
  exact ⟨line, (Text.lines_eq_iff.mp rfl).not_mem (List.mem_filter.mp hline).1, hread⟩

/-- What is read, written and read again is the same. This holds of an example that is read from
any line. It holds of a list of examples that are written on one line each, if their names have
no comma, `=`, arrow or line feed in them and no blanks at their ends, so in particular of every
list that has been read from a text. -/
theorem round_trips :
    (∀ line e, read line = .ok e → read e.text = .ok e) ∧
    (∀ es : List Example, (∀ e ∈ es, ∀ b ∈ e.input.entries, Plain b.1 ∧ '\n' ∉ b.1.toList) →
      readAll ("\n".intercalate (es.map text)) = .ok es) ∧
    ∀ s es, readAll s = .ok es → readAll ("\n".intercalate (es.map text)) = .ok es := by
  refine ⟨fun line e h => ?_, fun es => readAll_texts, fun s es h => readAll_texts fun e he => ?_⟩
  · exact read_text fun b hb => ((read_eq_ok_iff.mp h).plain hb).1
  · obtain ⟨line, hfeed, hread⟩ := exists_line_of_readAll h he
    intro b hb
    have ⟨hplain, hoccurs⟩ := (read_eq_ok_iff.mp hread).plain hb
    rw [String.toList_ofList] at hoccurs
    exact ⟨hplain, fun hmem => hfeed (hoccurs.subset hmem)⟩

/-- An empty name and one that looks much like an arrow, and a text with blank lines. -/
theorem round_trips_odd_names :
    let e : Example := ⟨.ofList [("", -2), ("- >", 1)], 3⟩
    let e' : Example := ⟨.ofList [(">-\r-", 0)], -1⟩
    read "- >=1,=+07, =-2 -> 003" = .ok e ∧ read e.text = .ok e ∧
      (∀ a ∈ [e, e'], ∀ b ∈ a.input.entries, Plain b.1 ∧ '\n' ∉ b.1.toList) ∧
      readAll ("\n".intercalate ([e, e'].map text)) = .ok [e, e'] ∧
      readAll "\n - >=1,=-2->3\r\n\t\n>-\r-=-0->-1" = .ok [e, e'] ∧
      readAll ("\n".intercalate ([e, e'].map text)) = .ok [e, e'] :=
  ⟨rfl, round_trips.1 "- >=1,=+07, =-2 -> 003" _ rfl, by decide, round_trips.2.1 _ (by decide), rfl,
    round_trips.2.2 "\n - >=1,=-2->3\r\n\t\n>-\r-=-0->-1" _ rfl⟩

end Example

end Sygus
