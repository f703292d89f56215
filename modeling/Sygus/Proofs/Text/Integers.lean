import Mathlib.Algebra.Group.Nat.Defs
import Sygus.Proofs.Text.Cutting
import Sygus.Text.Integer

/-!
# Decimal literals

A text that is read as a 64-bit integer is a literal of it: at most one sign, and digits that
write its magnitude. Any other text has a first flaw, seen from the left: there is nothing to
read, a digit is missing where one has to be, or the digits so far write too much. What is
written for an integer is a literal of it, so it is read as the same integer again.
-/

namespace Sygus.Text

variable {s digits body : List Char} {negative : Bool} {c : Char} {n : Int} {m : Nat}
  {flaw : IntegerFlaw}

/-! ## What a literal is -/

/-- The integer of this magnitude on one side of zero. -/
def signed (negative : Bool) (magnitude : Nat) : Int :=
  if negative then -magnitude else magnitude

/-- The greatest magnitude that a 64-bit integer has on one side of zero. -/
def greatest (negative : Bool) : Nat := if negative then 2 ^ 63 else 2 ^ 63 - 1

/-- How an integer of a greater magnitude is rejected. -/
def beyond (negative : Bool) : IntegerFlaw := if negative then .tooSmall else .tooLarge

/-- The text is a body after a sign. A text that does not begin with a sign is all body. -/
inductive Signed : List Char → Bool → List Char → Prop
  | plus (body : List Char) : Signed ('+' :: body) false body
  | minus (body : List Char) : Signed ('-' :: body) true body
  | plain {body : List Char} (h : ∀ c ∈ body.head?, c ≠ '+' ∧ c ≠ '-') : Signed body false body

/-- Every character is an ASCII digit. -/
def Digits (s : List Char) : Prop := ∀ c ∈ s, c.isDigit = true

/-- A decimal literal of `n`: one or more digits after at most one sign. -/
def Literal (s : List Char) (n : Int) : Prop :=
  ∃ negative digits, Signed s negative digits ∧ digits ≠ [] ∧ Digits digits ∧
    n = signed negative (Nat.ofDigitChars 10 digits 0)

/-- Digits that are read after digits of magnitude `m` end early, seen from the left. -/
inductive Stops (negative : Bool) (m : Nat) : List Char → IntegerFlaw → Prop
  /-- The digits before `c` are still in range, and `c` is no digit. -/
  | invalidDigit {digits rest : List Char} {c : Char} (hdigits : Digits digits)
      (hle : Nat.ofDigitChars 10 digits m ≤ greatest negative) (hc : c.isDigit = false) :
      Stops negative m (digits ++ c :: rest) .invalidDigit
  /-- The digits write more than the range has, whatever follows them. -/
  | beyond {digits rest : List Char} (hdigits : Digits digits)
      (hlt : greatest negative < Nat.ofDigitChars 10 digits m) :
      Stops negative m (digits ++ rest) (beyond negative)

/-- The first flaw of a text that is no literal of a 64-bit integer. -/
inductive Unreadable : List Char → IntegerFlaw → Prop
  | empty : Unreadable [] .empty
  | loneSign {c : Char} (h : c = '+' ∨ c = '-') : Unreadable [c] .invalidDigit
  | body {s body : List Char} {negative : Bool} {flaw : IntegerFlaw}
      (hsigned : Signed s negative body)
      (hstops : Stops negative 0 body flaw) : Unreadable s flaw

/-! ## Signs -/

theorem exists_signed (s : List Char) : ∃ negative body, Signed s negative body := by
  match s with
  | [] => exact ⟨false, [], .plain nofun⟩
  | c :: cs =>
    by_cases hplus : c = '+'
    · exact ⟨false, cs, hplus ▸ .plus cs⟩
    · by_cases hminus : c = '-'
      · exact ⟨true, cs, hminus ▸ .minus cs⟩
      · exact ⟨false, c :: cs, .plain (by simp [hplus, hminus])⟩

theorem Signed.unique {negative' : Bool} {body' : List Char} (h : Signed s negative body)
    (h' : Signed s negative' body') : negative = negative' ∧ body = body' := by
  cases h <;> cases h' <;> simp_all

theorem Signed.readInteger_eq (h : Signed s negative body) (hne : body ≠ []) :
    readInteger .signed64 s = readDigits .signed64 negative 0 body := by
  obtain ⟨c, cs, rfl⟩ := List.exists_cons_of_ne_nil hne
  cases h with
  | plus => rfl
  | minus => rfl
  | plain h =>
    have ⟨hplus, hminus⟩ := h c rfl
    unfold readInteger
    split <;> simp_all

/-! ## Digits -/

theorem digits_cons_iff : Digits (c :: s) ↔ c.isDigit = true ∧ Digits s := List.forall_mem_cons

theorem digit?_eq (c : Char) :
    digit? c = if c.isDigit then some (c.toNat - '0'.toNat) else none := by
  simp only [digit?, Char.isDigit, Bool.and_eq_true, decide_eq_true_eq]
  rfl

theorem le_ofDigitChars (s : List Char) (m : Nat) : m ≤ Nat.ofDigitChars 10 s m := by
  induction s generalizing m with
  | nil => exact Nat.le_refl m
  | cons c s ih =>
    rw [Nat.ofDigitChars_cons]
    exact Nat.le_trans (by omega) (ih _)

/-- An integer is below the range if its magnitude is too great on that side of zero. -/
theorem signed_lt_least_iff :
    signed negative m < IntegerRange.signed64.least ↔
      negative = true ∧ greatest negative < m := by
  have hleast : IntegerRange.signed64.least = -2 ^ 63 := rfl
  cases negative <;> simp only [signed, greatest, hleast, Bool.false_eq_true, if_true, if_false,
    true_and, false_and, iff_false] <;> omega

theorem greatest_lt_signed_iff :
    IntegerRange.signed64.greatest < signed negative m ↔
      negative = false ∧ greatest negative < m := by
  have hgreatest : IntegerRange.signed64.greatest = 2 ^ 63 - 1 := rfl
  cases negative <;> simp only [signed, greatest, hgreatest, Bool.true_eq_false,
    Bool.false_eq_true, if_true, if_false, true_and, false_and, iff_false] <;> omega

/-- One more digit is read, unless it is none or makes the magnitude too great. -/
theorem readDigits_cons (negative : Bool) (m : Nat) (c : Char) (s : List Char) :
    readDigits .signed64 negative (signed negative m) (c :: s)
      = if c.isDigit then
          if greatest negative < 10 * m + (c.toNat - '0'.toNat) then .error (beyond negative)
          else readDigits .signed64 negative
            (signed negative (10 * m + (c.toNat - '0'.toNat))) s
        else .error .invalidDigit := by
  rw [readDigits, digit?_eq]
  by_cases hdigit : c.isDigit
  · simp only [if_pos hdigit]
    generalize c.toNat - '0'.toNat = d
    have hnext : (if negative then signed negative m * 10 - d else signed negative m * 10 + d)
        = signed negative (10 * m + d) := by
      cases negative <;> simp [signed] <;> omega
    simp only [hnext, signed_lt_least_iff, greatest_lt_signed_iff]
    cases negative <;> simp [beyond]
  · simp only [if_neg hdigit]

/-- Digits are read to the end if they are digits and their magnitude is in range. -/
theorem readDigits_eq_ok_iff (hm : m ≤ greatest negative) :
    readDigits .signed64 negative (signed negative m) s = .ok n ↔
      Digits s ∧ Nat.ofDigitChars 10 s m ≤ greatest negative ∧
        n = signed negative (Nat.ofDigitChars 10 s m) := by
  induction s generalizing m with
  | nil =>
    rw [readDigits, Except.ok.injEq]
    exact ⟨fun h => ⟨nofun, hm, h.symm⟩, fun h => h.2.2.symm⟩
  | cons c s ih =>
    rw [readDigits_cons, Nat.ofDigitChars_cons]
    have hle := le_ofDigitChars s (10 * m + (c.toNat - '0'.toNat))
    split
    · rename_i hdigit
      split
      · exact ⟨(nomatch ·), fun h => by omega⟩
      · rw [ih (by omega), digits_cons_iff]
        simp only [hdigit, true_and]
    · rename_i hdigit
      exact ⟨(nomatch ·), fun h => absurd (h.1 c (.head _)) hdigit⟩

theorem stops_cons_iff (hm : m ≤ greatest negative) :
    Stops negative m (c :: s) flaw ↔
      if c.isDigit then
        if greatest negative < 10 * m + (c.toNat - '0'.toNat) then flaw = beyond negative
        else Stops negative (10 * m + (c.toNat - '0'.toNat)) s flaw
      else flaw = .invalidDigit := by
  constructor
  · intro h
    generalize hs : c :: s = cs at h
    cases h with
    | @invalidDigit digits d rest hdigits hle hd =>
      cases digits with
      | nil =>
        obtain ⟨rfl, rfl⟩ := List.cons.inj hs
        rw [if_neg (by simp [hd])]
      | cons d ds =>
        obtain ⟨rfl, rfl⟩ := List.cons.inj hs
        have ⟨hc, hds⟩ := digits_cons_iff.mp hdigits
        rw [Nat.ofDigitChars_cons] at hle
        rw [if_pos hc, if_neg (Nat.not_lt.mpr (Nat.le_trans (le_ofDigitChars ds _) hle))]
        exact .invalidDigit hds hle hd
    | @beyond digits rest hdigits hlt =>
      cases digits with
      | nil => exact absurd hlt (Nat.not_lt.mpr hm)
      | cons d ds =>
        obtain ⟨rfl, rfl⟩ := List.cons.inj hs
        have ⟨hc, hds⟩ := digits_cons_iff.mp hdigits
        rw [if_pos hc]
        split
        · rfl
        · exact .beyond hds hlt
  · intro h
    split at h
    · rename_i hc
      split at h
      · rename_i hlt
        exact h ▸ @Stops.beyond _ m [c] s (by simpa [Digits] using hc) hlt
      · cases h with
        | @invalidDigit digits d rest hdigits hle hd =>
          exact @Stops.invalidDigit _ _ (c :: digits) _ _ (digits_cons_iff.mpr ⟨hc, hdigits⟩) hle hd
        | @beyond digits rest hdigits hlt =>
          exact @Stops.beyond _ _ (c :: digits) _ (digits_cons_iff.mpr ⟨hc, hdigits⟩) hlt
    · rename_i hc
      exact h ▸ @Stops.invalidDigit _ m [] s c nofun hm (Bool.eq_false_iff.mpr hc)

theorem not_stops_nil (hm : m ≤ greatest negative) : ¬ Stops negative m [] flaw := by
  intro h
  generalize hs : [] = cs at h
  cases h with
  | invalidDigit => simp at hs
  | beyond _ hlt =>
    obtain ⟨rfl, -⟩ := List.append_eq_nil_iff.mp hs.symm
    exact absurd hlt (Nat.not_lt.mpr hm)

theorem readDigits_eq_error_iff (hm : m ≤ greatest negative) :
    readDigits .signed64 negative (signed negative m) s = .error flaw ↔
      Stops negative m s flaw := by
  induction s generalizing m with
  | nil =>
    rw [readDigits]
    exact ⟨(nomatch ·), fun h => absurd h (not_stops_nil hm)⟩
  | cons c s ih =>
    rw [readDigits_cons, stops_cons_iff hm]
    split
    · split
      · exact ⟨fun h => (Except.error.inj h).symm, fun h => h ▸ rfl⟩
      · exact ih (by omega)
    · exact ⟨fun h => (Except.error.inj h).symm, fun h => h ▸ rfl⟩

/-! ## Whole texts -/

theorem signed_zero (negative : Bool) : signed negative 0 = 0 := by cases negative <;> rfl

/-- A magnitude is in range if the integer on that side of zero is. -/
theorem le_greatest_iff :
    m ≤ greatest negative ↔
      Int64.minValue.toInt ≤ signed negative m ∧ signed negative m ≤ Int64.maxValue.toInt := by
  have hleast : Int64.minValue.toInt = -2 ^ 63 := rfl
  have hgreatest : Int64.maxValue.toInt = 2 ^ 63 - 1 := rfl
  cases negative <;> simp only [signed, greatest, hleast, hgreatest, Bool.false_eq_true, if_true,
    if_false] <;> omega

/-- A sign alone, or nothing at all. -/
theorem Signed.eq_of_nil (h : Signed s negative []) :
    s = [] ∨ ∃ c, s = [c] ∧ (c = '+' ∨ c = '-') := by
  cases h with
  | plus => exact .inr ⟨_, rfl, .inl rfl⟩
  | minus => exact .inr ⟨_, rfl, .inr rfl⟩
  | plain => exact .inl rfl

theorem Signed.literal_iff (h : Signed s negative body) :
    Literal s n ↔ body ≠ [] ∧ Digits body ∧ n = signed negative (Nat.ofDigitChars 10 body 0) := by
  refine ⟨?_, fun h' => ⟨negative, body, h, h'⟩⟩
  rintro ⟨negative', body', h', hliteral⟩
  obtain ⟨rfl, rfl⟩ := h.unique h'
  exact hliteral

theorem readInteger_eq_ok_iff :
    readInteger .signed64 s = .ok n ↔
      Literal s n ∧ Int64.minValue.toInt ≤ n ∧ n ≤ Int64.maxValue.toInt := by
  obtain ⟨negative, body, hsigned⟩ := exists_signed s
  rw [hsigned.literal_iff]
  by_cases hbody : body = []
  · subst hbody
    refine ⟨fun h => ?_, fun h => absurd rfl h.1.1⟩
    obtain rfl | ⟨c, rfl, rfl | rfl⟩ := hsigned.eq_of_nil <;> cases h
  · rw [hsigned.readInteger_eq hbody, ← signed_zero negative,
      readDigits_eq_ok_iff (Nat.zero_le _), le_greatest_iff]
    constructor
    · rintro ⟨hdigits, hrange, rfl⟩
      exact ⟨⟨hbody, hdigits, rfl⟩, hrange⟩
    · rintro ⟨⟨-, hdigits, rfl⟩, hrange⟩
      exact ⟨hdigits, hrange, rfl⟩

/-- The texts that are read are the literals of the 64-bit integers. -/
theorem readInt64_eq_ok_iff {v : Int64} : readInt64 s = .ok v ↔ Literal s v.toInt := by
  have hrange : readInteger .signed64 s = .ok v.toInt ↔ Literal s v.toInt := by
    rw [readInteger_eq_ok_iff]
    exact and_iff_left ⟨Int64.minValue_le_toInt v, Int64.toInt_le v⟩
  rw [← hrange, readInt64]
  cases hread : readInteger .signed64 s with
  | error flaw => simp [Except.map]
  | ok n =>
    have ⟨hleast, hgreatest⟩ := (readInteger_eq_ok_iff.mp hread).2
    simp only [Except.map, Except.ok.injEq]
    constructor
    · rintro rfl
      exact (Int64.toInt_ofInt_of_le hleast (Int.lt_of_le_sub_one hgreatest)).symm
    · rintro rfl
      exact Int64.ofInt_toInt v

/-- Where there is no body, nothing in it stops the digits. -/
theorem Signed.not_stops {negative' : Bool} (h : Signed s negative [])
    (h' : Signed s negative' body) :
    ¬ Stops negative' 0 body flaw := by
  obtain ⟨rfl, rfl⟩ := h.unique h'
  exact not_stops_nil (Nat.zero_le _)

theorem unreadable_nil_iff : Unreadable [] flaw ↔ flaw = .empty := by
  refine ⟨fun h => ?_, fun h => h ▸ .empty⟩
  cases h with
  | empty => rfl
  | body hsigned hstops => exact absurd hstops (Signed.not_stops (.plain nofun) hsigned)

theorem unreadable_sign_iff (hc : c = '+' ∨ c = '-') :
    Unreadable [c] flaw ↔ flaw = .invalidDigit := by
  obtain ⟨negative, hsigned⟩ : ∃ negative, Signed [c] negative [] := by
    rcases hc with rfl | rfl
    · exact ⟨_, .plus []⟩
    · exact ⟨_, .minus []⟩
  refine ⟨fun h => ?_, fun h => h ▸ .loneSign hc⟩
  cases h with
  | loneSign => rfl
  | body hsigned' hstops => exact absurd hstops (hsigned.not_stops hsigned')

theorem Signed.unreadable_iff (h : Signed s negative body) (hbody : body ≠ []) :
    Unreadable s flaw ↔ Stops negative 0 body flaw := by
  refine ⟨fun hflaw => ?_, .body h⟩
  cases hflaw with
  | empty => exact absurd (h.unique (.plain nofun)).2 hbody
  | loneSign hc =>
    rcases hc with rfl | rfl
    · exact absurd (h.unique (.plus [])).2 hbody
    · exact absurd (h.unique (.minus [])).2 hbody
  | body h' hstops =>
    obtain ⟨rfl, rfl⟩ := h.unique h'
    exact hstops

theorem readInteger_eq_error_iff :
    readInteger .signed64 s = .error flaw ↔ Unreadable s flaw := by
  obtain ⟨negative, body, hsigned⟩ := exists_signed s
  by_cases hbody : body = []
  · subst hbody
    obtain rfl | ⟨c, rfl, hc⟩ := hsigned.eq_of_nil
    · rw [unreadable_nil_iff, readInteger, Except.error.injEq, eq_comm]
    · have hread : readInteger .signed64 [c] = .error .invalidDigit := by
        rcases hc with rfl | rfl <;> rfl
      rw [unreadable_sign_iff hc, hread, Except.error.injEq, eq_comm]
  · rw [hsigned.readInteger_eq hbody, ← signed_zero negative,
      readDigits_eq_error_iff (Nat.zero_le _), hsigned.unreadable_iff hbody]

/-- The other texts are rejected for their first flaw. -/
theorem readInt64_eq_error_iff : readInt64 s = .error flaw ↔ Unreadable s flaw := by
  rw [← readInteger_eq_error_iff, readInt64]
  cases readInteger .signed64 s <;> simp [Except.map]

/-! ## Writing -/

theorem isDigit_of_mem_toDigits {n : Nat} (h : c ∈ Nat.toDigits 10 n) : c.isDigit = true :=
  Nat.isDigit_of_mem_toDigits (by decide) (by decide) h

/-- What is written for an integer is a literal of it. -/
theorem literal_writeInteger (n : Int) : Literal (writeInteger n) n := by
  have hvalue := @Nat.ofDigitChars_ten_toDigits n.natAbs
  rw [writeInteger]
  split
  · refine ⟨true, _, .minus _, Nat.toDigits_ne_nil, fun c => isDigit_of_mem_toDigits, ?_⟩
    rw [hvalue, signed, if_pos rfl]
    omega
  · refine ⟨false, _, .plain fun c hc => ?_, Nat.toDigits_ne_nil,
      fun c => isDigit_of_mem_toDigits, ?_⟩
    · have hdigit := isDigit_of_mem_toDigits (List.mem_of_mem_head? hc)
      constructor <;> rintro rfl <;> cases hdigit
    · rw [hvalue, signed, if_neg (by decide)]
      omega

/-- What is written is digits, after a minus or not. -/
theorem mem_writeInteger (h : c ∈ writeInteger n) : c.isDigit = true ∨ c = '-' := by
  rw [writeInteger] at h
  split at h
  · exact (List.mem_cons.mp h).symm.imp_left isDigit_of_mem_toDigits
  · exact .inl (isDigit_of_mem_toDigits h)

theorem isBlank_of_isDigit (h : c.isDigit = true) : isBlank c = false := by
  simp only [Char.isDigit, Bool.and_eq_true, decide_eq_true_eq, ge_iff_le,
    UInt32.le_iff_toNat_le] at h
  have hleast : 48 ≤ c.toNat := h.1
  have hgreatest : c.toNat ≤ 57 := h.2
  simp [isBlank]
  omega

/-- An integer is written without blanks. -/
theorem isBlank_of_mem_writeInteger (h : c ∈ writeInteger n) : isBlank c = false := by
  rcases mem_writeInteger h with hdigit | rfl
  · exact isBlank_of_isDigit hdigit
  · decide

end Sygus.Text
