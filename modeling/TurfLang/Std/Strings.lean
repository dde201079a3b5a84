import Mathlib.Data.List.TakeWhile
import Mathlib.Tactic
import TurfLang.Lib.Loop

/-!
# `lib/std/core/strings.tr`: bytes, `StringBuilder`, `parse_double`

A string is the list of its bytes up to the terminator; `char` is a *signed* byte, so
`c to int` is negative from `0x80` on. A `StringBuilder` is the bytes appended to it: its
buffer and capacity never show through `append`, `append_char` and `to_string`.
-/

namespace TurfLang

/-- The bytes of a string, its terminating NUL left out. -/
abbrev Bytes := List UInt8

instance : LawfulBEq Bytes := inferInstance

/-- The bytes of an ASCII literal. -/
def bytes (s : String) : Bytes := s.toList.map fun c => UInt8.ofNat c.toNat

namespace Strings

/-- `n to string` of an `int` that is not negative. -/
def natToString (n : ℕ) : Bytes := (Nat.toDigits 10 n).map fun c => UInt8.ofNat c.toNat

/-- `c to int` of a `char`, which is a signed byte. -/
def charToInt (c : UInt8) : ℤ := if c.toNat < 128 then c.toNat else c.toNat - 256

/-- C's `strlen`: the number of bytes before the first NUL. -/
def strlen (s : Bytes) : ℕ := (s.takeWhile (· ≠ 0)).length

/-- `a == b` of two strings: the same bytes before the terminator. -/
def streq (a b : Bytes) : Bool := a.take (strlen a) = b.take (strlen b)

/-- `byte_at_unchecked(s, i)`; position `s.length` reads the terminator. -/
def byteAtUnchecked (s : Bytes) (i : ℕ) : UInt8 := s.getD i 0

theorem charToInt_eq_iff {c : UInt8} {n : ℕ} (h : n < 128) :
    charToInt c = n ↔ c = UInt8.ofNat n := by
  have hc := c.toNat_lt
  rw [← UInt8.toNat_inj, UInt8.toNat_ofNat_of_lt' (by simpa using Nat.lt_trans h (by decide)),
    charToInt]
  split_ifs <;> omega

theorem strlen_of_noNul {s : Bytes} (h : 0 ∉ s) : strlen s = s.length := by
  have : ∀ c ∈ s, decide (c ≠ 0) = true := fun c hc => by
    simpa using fun h0 : c = 0 => h (h0 ▸ hc)
  rw [strlen, List.takeWhile_eq_self_iff.2 this]

theorem streq_iff {a b : Bytes} (ha : 0 ∉ a) (hb : 0 ∉ b) : streq a b = true ↔ a = b := by
  simp [streq, strlen_of_noNul ha, strlen_of_noNul hb]

theorem byteAtUnchecked_of_drop {s rest : Bytes} {c : UInt8} {i : ℕ} (h : s.drop i = c :: rest) :
    byteAtUnchecked s i = c := by
  have : s[i]? = some c := by
    calc s[i]? = (s.drop i)[0]? := by simp
      _ = some c := by simp [h]
  simp [byteAtUnchecked, List.getD_eq_getElem?_getD, this]

/-! ### `StringBuilder` -/

/-- The bytes appended so far. -/
structure StringBuilder where
  text : Bytes := []

/-- `append`: every byte of `s` up to its terminator. -/
def StringBuilder.append (sb : StringBuilder) (s : Bytes) : StringBuilder :=
  ⟨sb.text ++ s.take (strlen s)⟩

/-- `append_char`. -/
def StringBuilder.appendChar (sb : StringBuilder) (c : UInt8) : StringBuilder := ⟨sb.text ++ [c]⟩

/-- `to_string`. -/
def StringBuilder.toString (sb : StringBuilder) : Bytes := sb.text

@[simp] theorem StringBuilder.appendChar_text (sb : StringBuilder) (c : UInt8) :
    (sb.appendChar c).text = sb.text ++ [c] := rfl

@[simp] theorem StringBuilder.toString_eq (sb : StringBuilder) : sb.toString = sb.text := rfl

theorem StringBuilder.append_text {s : Bytes} (sb : StringBuilder) (h : 0 ∉ s) :
    (sb.append s).text = sb.text ++ s := by
  simp [StringBuilder.append, strlen_of_noNul h]

/-! ### `parse_double` -/

/-- Whether a byte is an ASCII digit. -/
def isDigit (c : UInt8) : Bool := 48 ≤ charToInt c ∧ charToInt c ≤ 57

/-- `is_digit_at(s, i)`. -/
def isDigitAt (s : Bytes) (i : ℕ) : Bool := isDigit (byteAtUnchecked s i)

/-- `StringParseError`, with its message. -/
inductive StringParseError
  | invalidInt (message : Bytes)
  | invalidDouble (message : Bytes)
  deriving DecidableEq

/-- The error `parse_double` returns, with its message text. -/
def notADouble (s : Bytes) : StringParseError :=
  .invalidDouble (bytes "not a double: '" ++ s ++ bytes "'")

/-- `if i < n && (s[i] == a || s[i] == b) { i = i + 1; }`, returning `i`. -/
def skipOneOf (s : Bytes) (n : ℕ) (a b : ℤ) (i : ℕ) : ℕ :=
  if i < n ∧ (charToInt (byteAtUnchecked s i) = a ∨ charToInt (byteAtUnchecked s i) = b)
  then i + 1 else i

/-- `while i < n && is_digit_at(s, i) { i = i + 1; }`, returning `i`. -/
def skipDigits (s : Bytes) (n i : ℕ) : ℕ := Loop.scan (isDigitAt s) n i

/-- The position after a `.` and its digits, or `i` when no `.` is there. -/
def skipFraction (s : Bytes) (n i : ℕ) : ℕ :=
  if i < n ∧ charToInt (byteAtUnchecked s i) = 46 then skipDigits s n (i + 1) else i

/-- Whether an exponent's letter stands at `i`. -/
def AtExponent (s : Bytes) (n i : ℕ) : Prop :=
  i < n ∧ (charToInt (byteAtUnchecked s i) = 101 ∨ charToInt (byteAtUnchecked s i) = 69)

instance (s : Bytes) (n i : ℕ) : Decidable (AtExponent s n i) := by
  unfold AtExponent; infer_instance

/-- `parse_double`; `toDouble` is the conversion `s to double`. -/
def parseDouble {D : Type} (toDouble : Bytes → D) (s : Bytes) : Except StringParseError D :=
  let n := strlen s
  let i₁ := skipOneOf s n 45 45 0
  let i₂ := skipDigits s n i₁
  let i₃ := skipFraction s n i₂
  let digits := (i₂ - i₁) + (i₃ - (i₂ + 1))
  if digits = 0 then .error (notADouble s)
  else if AtExponent s n i₃ then
    let start := skipOneOf s n 43 45 (i₃ + 1)
    let i₄ := skipDigits s n start
    let expDigits := i₄ - start
    if expDigits = 0 then .error (notADouble s)
    else if i₄ ≠ n then .error (notADouble s)
    else .ok (toDouble s)
  else if i₃ ≠ n then .error (notADouble s)
  else .ok (toDouble s)

/-! ### The decimal texts `parse_double` accepts -/

/-- A run of digits. -/
def Digits (ds : Bytes) : Prop := ∀ c ∈ ds, isDigit c = true

/-- A `.` and its digits, or nothing. -/
inductive Fraction : Bytes → Prop
  | none : Fraction []
  | some {ds : Bytes} (hds : Digits ds) (hne : ds ≠ []) : Fraction (46 :: ds)

/-- An `e` or `E`, a sign or none, and digits; or nothing. -/
inductive Exponent : Bytes → Prop
  | none : Exponent []
  | some {e : UInt8} {sign ds : Bytes} (he : e = 101 ∨ e = 69)
      (hsign : sign = [] ∨ sign = [43] ∨ sign = [45]) (hds : Digits ds) (hne : ds ≠ []) :
      Exponent (e :: (sign ++ ds))

/-- A number of the JSON grammar (leading zeros allowed): `-? digits fraction? exponent?`. -/
inductive DecimalText : Bytes → Prop
  | intro {sign ds frac exp : Bytes} (hsign : sign = [] ∨ sign = [45]) (hds : Digits ds)
      (hne : ds ≠ []) (hfrac : Fraction frac) (hexp : Exponent exp) :
      DecimalText (sign ++ (ds ++ (frac ++ exp)))

/-- What may stand after a number: no digit, point or exponent letter. -/
def EndsNumber (rest : Bytes) : Prop :=
  ∀ c ∈ rest.head?, isDigit c = false ∧ c ≠ 46 ∧ c ≠ 101 ∧ c ≠ 69

theorem endsNumber_nil : EndsNumber [] := by simp [EndsNumber]

section Positions

variable {s rest : Bytes} {i : ℕ}

theorem lt_length_of_drop {c : UInt8} (h : s.drop i = c :: rest) : i < s.length := by
  by_contra hge
  rw [List.drop_eq_nil_of_le (by omega)] at h
  cases h

theorem drop_add_of_drop {t : Bytes} (h : s.drop i = t ++ rest) :
    s.drop (i + t.length) = rest := by
  rw [← List.drop_drop, h, List.drop_left]

theorem drop_cons_of_drop {c : UInt8} (h : s.drop i = c :: rest) : s.drop (i + 1) = rest := by
  rw [← List.drop_drop, h, List.drop_one, List.tail_cons]

/-- `skipOneOf` passes over one of its two bytes. -/
theorem skipOneOf_cons {c : UInt8} {a b : ℤ} (h : s.drop i = c :: rest)
    (hc : charToInt c = a ∨ charToInt c = b) : skipOneOf s s.length a b i = i + 1 := by
  rw [skipOneOf, byteAtUnchecked_of_drop h, if_pos ⟨lt_length_of_drop h, hc⟩]

/-- `skipOneOf` stays before any other byte. -/
theorem skipOneOf_of_ne {a b : ℤ} (hs : s.drop i = rest)
    (h : ∀ c ∈ rest.head?, charToInt c ≠ a ∧ charToInt c ≠ b) :
    skipOneOf s s.length a b i = i := by
  rw [skipOneOf, if_neg]
  rintro ⟨hlt, hc⟩
  cases rest with
  | nil => simp at hs; omega
  | cons c rest =>
    rw [byteAtUnchecked_of_drop hs] at hc
    have := h c (by simp)
    tauto

/-- A loop over digits passes over the run of digits it stands before. -/
theorem skipDigits_of_drop {ds : Bytes} (hs : s.drop i = ds ++ rest) (hds : Digits ds)
    (hrest : ∀ c ∈ rest.head?, isDigit c = false) :
    skipDigits s s.length i = i + ds.length :=
  Loop.scan_drop hs hds hrest

theorem isDigit_iff {c : UInt8} : isDigit c = true ↔ 48 ≤ c.toNat ∧ c.toNat ≤ 57 := by
  have hc := c.toNat_lt
  rw [isDigit, decide_eq_true_eq, charToInt]
  split_ifs <;> omega

/-- An optional sign before digits is passed over. -/
theorem skipOneOf_sign {sign ds : Bytes} {a b : ℤ} (hs : s.drop i = sign ++ (ds ++ rest))
    (hsign : ∀ c ∈ sign, charToInt c = a ∨ charToInt c = b) (hlen : sign.length ≤ 1)
    (hab : a < 48 ∧ b < 48) (hds : Digits ds) (hne : ds ≠ []) :
    skipOneOf s s.length a b i = i + sign.length := by
  match sign, hlen with
  | [c], _ => exact skipOneOf_cons hs (hsign c (by simp))
  | [], _ =>
    refine skipOneOf_of_ne hs fun c hc => ?_
    obtain ⟨d, ds, rfl⟩ := List.exists_cons_of_ne_nil hne
    obtain rfl : d = c := by simpa using hc
    have hd : isDigit d = true := hds d (by simp)
    simp only [isDigit, decide_eq_true_eq] at hd
    omega

/-- A fraction is passed over, and nothing else is. -/
theorem skipFraction_of_drop {frac : Bytes} (hs : s.drop i = frac ++ rest) (h : Fraction frac)
    (hrest : ∀ c ∈ rest.head?, isDigit c = false ∧ c ≠ 46) :
    skipFraction s s.length i = i + frac.length := by
  cases h with
  | none =>
    rw [skipFraction, if_neg]; · rfl
    rintro ⟨hlt, hc⟩
    cases rest with
    | nil => simp at hs; omega
    | cons c rest =>
      rw [byteAtUnchecked_of_drop hs] at hc
      exact (hrest c (by simp)).2 ((charToInt_eq_iff (by decide)).1 hc)
  | @some ds hds hne =>
    have hs₁ : s.drop (i + 1) = ds ++ rest := drop_cons_of_drop hs
    rw [skipFraction, byteAtUnchecked_of_drop hs, if_pos ⟨lt_length_of_drop hs, by decide⟩,
      skipDigits_of_drop hs₁ hds fun c hc => (hrest c hc).1, List.length_cons]
    omega

theorem not_atExponent (hs : s.drop i = rest) (hrest : ∀ c ∈ rest.head?, c ≠ 101 ∧ c ≠ 69) :
    ¬ AtExponent s s.length i := by
  rintro ⟨hlt, hc⟩
  cases rest with
  | nil => simp at hs; omega
  | cons c rest =>
    rw [byteAtUnchecked_of_drop hs] at hc
    have := hrest c (by simp)
    rcases hc with hc | hc
    · exact this.1 ((charToInt_eq_iff (by decide)).1 hc)
    · exact this.2 ((charToInt_eq_iff (by decide)).1 hc)

/-- At an exponent the sign and the digits after the letter are passed over. -/
theorem exponent_of_drop {e : UInt8} {sign ds : Bytes} (hs : s.drop i = e :: (sign ++ ds ++ rest))
    (he : e = 101 ∨ e = 69) (hsign : sign = [] ∨ sign = [43] ∨ sign = [45]) (hds : Digits ds)
    (hne : ds ≠ []) (hrest : ∀ c ∈ rest.head?, isDigit c = false) :
    AtExponent s s.length i ∧
      skipOneOf s s.length 43 45 (i + 1) = i + 1 + sign.length ∧
      skipDigits s s.length (i + 1 + sign.length) = i + 1 + sign.length + ds.length := by
  have hs₁ : s.drop (i + 1) = sign ++ (ds ++ rest) := by
    rw [← List.append_assoc]
    exact drop_cons_of_drop hs
  refine ⟨⟨lt_length_of_drop hs, ?_⟩, ?_, ?_⟩
  · rw [byteAtUnchecked_of_drop hs]
    rcases he with rfl | rfl <;> decide
  · refine skipOneOf_sign hs₁ ?_ ?_ (by decide) hds hne
    · rcases hsign with rfl | rfl | rfl <;> simp [charToInt]
    · rcases hsign with rfl | rfl | rfl <;> decide
  · exact skipDigits_of_drop (drop_add_of_drop hs₁) hds hrest

theorem head?_append_of {P : UInt8 → Prop} {t : Bytes} (ht : ∀ c ∈ t.head?, P c)
    (hrest : ∀ c ∈ rest.head?, P c) : ∀ c ∈ (t ++ rest).head?, P c := by
  cases t with
  | nil => exact hrest
  | cons c t => simpa using ht

/-- Where the four steps over a number stop: they pass over all of it, with at least one
digit before the point and, when there is an exponent, at least one in it. -/
theorem positions_of_decimalText {t : Bytes} (hs : s.drop i = t ++ rest) (ht : DecimalText t)
    (hrest : EndsNumber rest) :
    ∃ i₁ i₂ i₃, skipOneOf s s.length 45 45 i = i₁ ∧ skipDigits s s.length i₁ = i₂ ∧
      skipFraction s s.length i₂ = i₃ ∧ i₁ < i₂ ∧
      ((¬ AtExponent s s.length i₃ ∧ i₃ = i + t.length) ∨
        (AtExponent s s.length i₃ ∧ ∃ start, skipOneOf s s.length 43 45 (i₃ + 1) = start ∧
          start < i + t.length ∧ skipDigits s s.length start = i + t.length)) := by
  obtain @⟨sign, ds, frac, exp, hsign, hds, hne, hfrac, hexp⟩ := ht
  simp only [List.append_assoc] at hs
  have hs₁ := drop_add_of_drop hs
  have hs₂ := drop_add_of_drop hs₁
  have hs₃ := drop_add_of_drop hs₂
  have hexpHead : ∀ c ∈ (exp ++ rest).head?, isDigit c = false ∧ c ≠ 46 := by
    refine head?_append_of ?_ fun c hc => ⟨(hrest c hc).1, (hrest c hc).2.1⟩
    cases hexp with
    | none => simp
    | some he => rcases he with rfl | rfl <;> simp [isDigit, charToInt]
  have hfracHead : ∀ c ∈ (frac ++ (exp ++ rest)).head?, isDigit c = false := by
    refine head?_append_of ?_ fun c hc => (hexpHead c hc).1
    cases hfrac with
    | none => simp
    | some => simp [isDigit, charToInt]
  have hlen : 0 < ds.length := List.length_pos_iff.2 hne
  refine ⟨i + sign.length, i + sign.length + ds.length,
    i + sign.length + ds.length + frac.length, ?_, ?_, ?_, by omega, ?_⟩
  · refine skipOneOf_sign hs ?_ ?_ (by decide) hds hne
    · rcases hsign with rfl | rfl <;> simp [charToInt]
    · rcases hsign with rfl | rfl <;> decide
  · exact skipDigits_of_drop hs₁ hds hfracHead
  · exact skipFraction_of_drop hs₂ hfrac hexpHead
  · cases hexp with
    | none =>
      refine .inl ⟨not_atExponent hs₃ fun c hc => (hrest c hc).2.2, ?_⟩
      simp only [List.length_append, List.length_nil]
      omega
    | @some e esign eds he hesign heds hene =>
      obtain ⟨hat, hstart, hend⟩ := exponent_of_drop (by simpa using hs₃) he hesign heds hene
        fun c hc => (hrest c hc).1
      have helen : 0 < eds.length := List.length_pos_iff.2 hene
      refine .inr ⟨hat, _, hstart, ?_, hend.trans ?_⟩ <;>
        simp only [List.length_append, List.length_cons] <;> omega

end Positions

theorem DecimalText.noNul {t : Bytes} (h : DecimalText t) : 0 ∉ t := by
  have hdigits : ∀ {ds : Bytes}, Digits ds → (0 : UInt8) ∉ ds := fun hds h0 =>
    absurd (hds 0 h0) (by decide)
  obtain @⟨sign, ds, frac, exp, hsign, hds, -, hfrac, hexp⟩ := h
  simp only [List.mem_append, not_or]
  refine ⟨?_, hdigits hds, ?_, ?_⟩
  · rcases hsign with rfl | rfl <;> decide
  · cases hfrac with
    | none => simp
    | some hds => simp [hdigits hds]
  · cases hexp with
    | none => simp
    | some he hsign hds =>
      rcases he with rfl | rfl <;> rcases hsign with rfl | rfl | rfl <;> simp [hdigits hds]

/-- `parse_double` converts every number of the grammar. -/
theorem parseDouble_of_decimalText {D : Type} (toDouble : Bytes → D) {t : Bytes}
    (h : DecimalText t) : parseDouble toDouble t = .ok (toDouble t) := by
  obtain ⟨i₁, i₂, i₃, h₁, h₂, h₃, hlt, hexp⟩ :=
    positions_of_decimalText (show t.drop 0 = t ++ [] by simp) h endsNumber_nil
  have hdigits : (i₂ - i₁) + (i₃ - (i₂ + 1)) ≠ 0 := by omega
  simp only [parseDouble, strlen_of_noNul h.noNul, h₁, h₂, h₃, if_neg hdigits]
  rcases hexp with ⟨hno, hend⟩ | ⟨hat, start, hstart, hlt', hend⟩
  · rw [if_neg hno, if_neg (by omega)]
  · rw [if_pos hat, hstart, hend, if_neg (by omega), if_neg (by omega)]

end Strings

end TurfLang
