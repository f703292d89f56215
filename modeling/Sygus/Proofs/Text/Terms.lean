import Mathlib.Data.List.Forall2
import Sygus.Proofs.Positions

/-!
# The text of a term is unambiguous

In the text of a term, parentheses and commas show where a name ends. If they occur in no name, the
text can be read in one way only, from the left: up to the first mark stands the name of the root,
and the mark says whether there are children. What follows the text of a term inside another text
begins with a mark as well, so a text never runs into the next one (`text_append_inj`).

Nothing is asked of blanks and of the length of names. The blank that follows a comma is the first
one, and a name that is empty still stands between two marks.

Kinds are not written: a hole has the same text as an atom with its name.
-/

namespace Sygus

/-- The characters that structure the text of a term. -/
def Text.marks : List Char := ['(', ')', ',']

/-- No mark occurs in the name. -/
def Symbol.Unmarked (s : Symbol) : Prop := ∀ c ∈ s.name.toList, c ∉ Text.marks

instance (s : Symbol) : Decidable s.Unmarked :=
  inferInstanceAs (Decidable (∀ c ∈ s.name.toList, c ∉ Text.marks))

/-- The text is empty, or one of these characters begins it. -/
def Text.StartsIn (starts cs : List Char) : Prop := ∀ c ∈ cs.head?, c ∈ starts

namespace Term

/-- The terms have the same shape, and the same name at each node. -/
def SameNames (t u : Term) : Prop := ∀ p, t.nameAt? p = u.nameAt? p

variable {s s' : Symbol} {cs ds : List Term} {t u : Term}

theorem sameNames_node (hs : s.name = s'.name) (hcs : List.Forall₂ SameNames cs ds) :
    SameNames (node s cs) (node s' ds) := by
  intro p
  cases p with
  | nil => rw [nameAt?_nil, nameAt?_nil, hs]
  | cons i p =>
      rw [nameAt?_cons, nameAt?_cons]
      induction hcs generalizing i with
      | nil => rfl
      | cons hc _ ih =>
          cases i with
          | zero => exact hc p
          | succ i => exact ih i

/-- Complete terms are known by their names. -/
theorem SameNames.eq_of_isComplete (h : SameNames t u) (ht : t.isComplete = true)
    (hu : u.isComplete = true) : t = u := by
  refine ext_symbolAt? fun p => ?_
  have hp := h p
  rw [nameAt?, nameAt?] at hp
  cases hs : t.symbolAt? p with
  | none =>
      rw [hs, Option.map_none, eq_comm, Option.map_eq_none_iff] at hp
      rw [hp]
  | some s =>
      rw [hs, Option.map_some, eq_comm, Option.map_eq_some_iff] at hp
      obtain ⟨s', hs', hname⟩ := hp
      have hterminal := isTerminal_of_symbolAt? ht hs
      have hterminal' := isTerminal_of_symbolAt? hu hs'
      cases s with
      | nonTerminal name => cases hterminal
      | terminal name =>
          cases s' with
          | nonTerminal name' => cases hterminal'
          | terminal name' =>
              rw [hs']
              exact congrArg (fun n => some (Symbol.terminal n)) (Eq.symm hname)

/-! ## Texts as characters -/

/-- What is written after the name of a node: nothing, or its children in parentheses. -/
def argumentsText : List Term → List Char
  | [] => []
  | c :: cs => '(' :: (c.text.toList ++ (textOfRest cs).toList)

theorem text_toList : (node s cs).text.toList = s.name.toList ++ argumentsText cs := by
  cases cs with
  | nil => simp [text, argumentsText]
  | cons c cs => simp [text, argumentsText]

theorem textOfRest_toList_cons {c : Term} : (textOfRest (c :: cs)).toList
    = ',' :: ' ' :: (c.text.toList ++ (textOfRest cs).toList) := by
  simp [textOfRest]

theorem startsIn_textOfRest (rest : List Char) :
    Text.StartsIn [')', ','] ((textOfRest cs).toList ++ rest) := by
  cases cs with
  | nil => simp [textOfRest, Text.StartsIn]
  | cons c cs => simp [textOfRest_toList_cons, Text.StartsIn]

theorem startsIn_argumentsText {rest : List Char} (h : Text.StartsIn [')', ','] rest) :
    Text.StartsIn Text.marks (argumentsText cs ++ rest) := by
  cases cs with
  | nil => exact fun c hc => List.mem_cons_of_mem _ (h c hc)
  | cons c cs => simp [argumentsText, Text.StartsIn, Text.marks]

/-- A name ends at the first mark. -/
theorem name_append_inj {name name' rest rest' : List Char} (hname : ∀ c ∈ name, c ∉ Text.marks)
    (hname' : ∀ c ∈ name', c ∉ Text.marks) (hrest : Text.StartsIn Text.marks rest)
    (hrest' : Text.StartsIn Text.marks rest') (h : name ++ rest = name' ++ rest') :
    name = name' ∧ rest = rest' := by
  induction name generalizing name' with
  | nil =>
      cases name' with
      | nil => exact ⟨rfl, h⟩
      | cons c name' =>
          have hmark : c ∈ Text.marks := hrest c (by rw [show rest = _ from h]; rfl)
          exact absurd hmark (hname' c List.mem_cons_self)
  | cons c name ih =>
      cases name' with
      | nil =>
          have hmark : c ∈ Text.marks := hrest' c (by rw [show rest' = _ from h.symm]; rfl)
          exact absurd hmark (hname c List.mem_cons_self)
      | cons c' name' =>
          obtain ⟨hc, htail⟩ := List.cons.inj h
          obtain ⟨heq, hrests⟩ := ih (fun d hd => hname d (List.mem_cons_of_mem _ hd))
            (fun d hd => hname' d (List.mem_cons_of_mem _ hd)) htail
          exact ⟨by rw [hc, heq], hrests⟩

/-! ## Reading from the left -/

/-- Children in parentheses and children after a first one are written alike, but for the mark that
comes before them. -/
theorem textOfRest_of_argumentsText {rest rest' : List Char} (hrest : Text.StartsIn [')', ','] rest)
    (hrest' : Text.StartsIn [')', ','] rest')
    (h : argumentsText cs ++ rest = argumentsText ds ++ rest') :
    (textOfRest cs).toList ++ rest = (textOfRest ds).toList ++ rest' := by
  cases cs with
  | nil =>
      cases ds with
      | nil => exact congrArg _ h
      | cons d ds =>
          -- what follows a term does not open a parenthesis
          have hopens : '(' ∈ [')', ','] := hrest '(' (by rw [show rest = _ from h]; rfl)
          simp at hopens
  | cons c cs =>
      cases ds with
      | nil =>
          have hopens : '(' ∈ [')', ','] := hrest' '(' (by rw [show rest' = _ from h.symm]; rfl)
          simp at hopens
      | cons d ds =>
          rw [argumentsText, argumentsText, List.cons_append, List.cons_append] at h
          rw [textOfRest_toList_cons, textOfRest_toList_cons]
          exact congrArg (',' :: ' ' :: ·) (List.cons.inj h).2

mutual

/-- **The text of a term shows where it ends and what the names are,** whatever follows it inside
another text. -/
theorem text_append_inj : ∀ (t u : Term) {rest rest' : List Char},
    (∀ s ∈ t.symbols, s.Unmarked) → (∀ s ∈ u.symbols, s.Unmarked) →
    Text.StartsIn [')', ','] rest → Text.StartsIn [')', ','] rest' →
    t.text.toList ++ rest = u.text.toList ++ rest' → SameNames t u ∧ rest = rest'
  | node s cs, node s' ds, rest, rest', ht, hu, hrest, hrest', h => by
      rw [symbols, List.forall_mem_cons] at ht hu
      rw [text_toList, text_toList, List.append_assoc, List.append_assoc] at h
      obtain ⟨hname, harguments⟩ := name_append_inj ht.1 hu.1 (startsIn_argumentsText hrest)
        (startsIn_argumentsText hrest') h
      obtain ⟨hcs, hrests⟩ := textOfRest_append_inj cs ds ht.2 hu.2
        (textOfRest_of_argumentsText hrest hrest' harguments)
      exact ⟨sameNames_node (String.toList_inj.mp hname) hcs, hrests⟩

theorem textOfRest_append_inj : ∀ (cs ds : List Term) {rest rest' : List Char},
    (∀ s ∈ symbolsOfAll cs, s.Unmarked) → (∀ s ∈ symbolsOfAll ds, s.Unmarked) →
    (textOfRest cs).toList ++ rest = (textOfRest ds).toList ++ rest' →
    List.Forall₂ SameNames cs ds ∧ rest = rest'
  | [], [], rest, rest', _, _, h => ⟨.nil, (List.cons.inj h).2⟩
  | [], d :: ds, rest, rest', _, _, h => by simp [textOfRest] at h
  | c :: cs, [], rest, rest', _, _, h => by simp [textOfRest] at h
  | c :: cs, d :: ds, rest, rest', hcs, hds, h => by
      rw [symbolsOfAll, List.forall_mem_append] at hcs hds
      have hinside : c.text.toList ++ ((textOfRest cs).toList ++ rest)
          = d.text.toList ++ ((textOfRest ds).toList ++ rest') := by
        simpa [textOfRest_toList_cons] using h
      obtain ⟨hc, hafter⟩ := text_append_inj c d hcs.1 hds.1 (startsIn_textOfRest _)
        (startsIn_textOfRest _) hinside
      obtain ⟨htail, hrests⟩ := textOfRest_append_inj cs ds hcs.2 hds.2 hafter
      exact ⟨.cons hc htail, hrests⟩

end

/--
**The text of a term is unambiguous.**

Take two terms in whose symbols' names there is no parenthesis and no comma; the names may be empty
or have blanks anywhere. If the terms have the same text, they have nodes at the same positions, and
nodes at the same position have the same name. So complete terms with the same text are equal.
-/
theorem text_is_unambiguous (t u : Term) (ht : ∀ s ∈ t.symbols, s.Unmarked)
    (hu : ∀ s ∈ u.symbols, s.Unmarked) (h : t.text = u.text) :
    (∀ p, t.nameAt? p = u.nameAt? p)
      ∧ (t.isComplete = true → u.isComplete = true → t = u) := by
  have hnil : Text.StartsIn [')', ','] [] := by simp [Text.StartsIn]
  have hsame : t.text.toList ++ [] = u.text.toList ++ [] := by rw [h]
  obtain ⟨hnames, _⟩ := text_append_inj t u ht hu hnil hnil hsame
  exact ⟨hnames, hnames.eq_of_isComplete⟩

/-- A term with empty names and with blanks around the commas. -/
def oddNames (kind : String → Symbol) : Term :=
  node (kind "f ") [leaf (kind ""), node (kind " ") [leaf (kind "")], leaf (kind " a")]

/-- Of the two kinds of symbols it has the same text and the same names. A single child without a
name is told from no child at all. -/
theorem text_is_unambiguous_odd_names :
    (oddNames .terminal).text = "f (,  (),  a)"
      ∧ (∀ p, (oddNames .terminal).nameAt? p = (oddNames .nonTerminal).nameAt? p)
      ∧ (op "f" [atom ""]).text ≠ (atom "f").text := by
  refine ⟨by simp [oddNames, text, textOfRest, leaf, Symbol.name],
    (text_is_unambiguous _ _ ?_ ?_ ?_).1, fun h => ?_⟩
  · simp [oddNames, symbols, symbolsOfAll, leaf, Symbol.Unmarked, Symbol.name, Text.marks]
  · simp [oddNames, symbols, symbolsOfAll, leaf, Symbol.Unmarked, Symbol.name, Text.marks]
  · simp [oddNames, text, textOfRest, leaf, Symbol.name]
  · have hmarks : ∀ u ∈ [op "f" [atom ""], atom "f"], ∀ s ∈ u.symbols, s.Unmarked := by
      simp [op, atom, symbols, symbolsOfAll, leaf, Symbol.Unmarked, Symbol.name, Text.marks]
    have heq := (text_is_unambiguous _ _ (hmarks _ (by simp)) (hmarks _ (by simp)) h).2 rfl rfl
    simp [op, atom, leaf] at heq

end Term

end Sygus
