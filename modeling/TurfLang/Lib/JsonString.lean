import Mathlib.Tactic

/-!
# The strings of JSON

The grammar of RFC 8259, section 7, over the bytes of a text in UTF-8, and the bytes a string
of that grammar stands for. A byte from `0x80` on is a part of a character that needs no escape.
A `\uXXXX` is a code unit of UTF-16; the grammar allows every one of them, and only those that
are a code point or pair up to one stand for bytes.
-/

namespace JsonString

/-- What one `char` of the grammar contributes. -/
inductive Element
  | byte (b : UInt8)
  | unit (u : ℕ)
  deriving DecidableEq

/-- A byte that may stand for itself: no control byte, no quotation mark, no backslash. -/
def Unescaped (c : UInt8) : Prop := 32 ≤ c.toNat ∧ c ≠ 34 ∧ c ≠ 92

/-- The letter after a backslash and the byte the two stand for. -/
def letters : List (UInt8 × UInt8) :=
  [(34, 34), (92, 92), (47, 47), (98, 8), (102, 12), (110, 10), (114, 13), (116, 9)]

/-- The value of a hexadecimal digit, in either case. -/
def hexDigit (c : UInt8) : Option ℕ :=
  if 48 ≤ c.toNat ∧ c.toNat ≤ 57 then some (c.toNat - 48)
  else if 65 ≤ c.toNat ∧ c.toNat ≤ 70 then some (c.toNat - 55)
  else if 97 ≤ c.toNat ∧ c.toNat ≤ 102 then some (c.toNat - 87)
  else none

/-- The value of four hexadecimal digits. -/
def codeUnit (a b c d : UInt8) : Option ℕ := do
  return (((← hexDigit a) * 16 + (← hexDigit b)) * 16 + (← hexDigit c)) * 16 + (← hexDigit d)

/-- `*char`: a text and what its characters contribute, one by one. -/
inductive Chars : List UInt8 → List Element → Prop
  | nil : Chars [] []
  | unescaped {c : UInt8} {t : List UInt8} {es : List Element} (hc : Unescaped c)
      (h : Chars t es) : Chars (c :: t) (.byte c :: es)
  | letter {l b : UInt8} {t : List UInt8} {es : List Element} (hl : (l, b) ∈ letters)
      (h : Chars t es) : Chars (92 :: l :: t) (.byte b :: es)
  | unit {a b c d : UInt8} {u : ℕ} {t : List UInt8} {es : List Element}
      (hu : codeUnit a b c d = some u) (h : Chars t es) :
      Chars (92 :: 117 :: a :: b :: c :: d :: t) (.unit u :: es)

/-- `string = quotation-mark *char quotation-mark`. -/
def IsString (t : List UInt8) : Prop := ∃ body es, Chars body es ∧ t = 34 :: (body ++ [34])

/-- A leading surrogate. -/
def isLeading (u : ℕ) : Bool := 0xD800 ≤ u ∧ u < 0xDC00

/-- A trailing surrogate. -/
def isTrailing (u : ℕ) : Bool := 0xDC00 ≤ u ∧ u < 0xE000

/-- The UTF-8 encoding of a code point. -/
def utf8 (v : ℕ) : List UInt8 := String.utf8EncodeChar (Char.ofNat v)

/-- The bytes the elements stand for; a surrogate that is not one of a pair has none. -/
def encode : List Element → Option (List UInt8)
  | [] => some []
  | .byte b :: es => (encode es).map (b :: ·)
  | .unit u :: .unit v :: es =>
    if isLeading u ∧ isTrailing v then
      (encode es).map (utf8 (0x10000 + (u - 0xD800) * 0x400 + (v - 0xDC00)) ++ ·)
    else if isLeading u ∨ isTrailing u then none
    else (encode (.unit v :: es)).map (utf8 u ++ ·)
  | .unit u :: es =>
    if isLeading u ∨ isTrailing u then none else (encode es).map (utf8 u ++ ·)

/-- The text `t` of a string stands for the bytes `s`. -/
def Decodes (t s : List UInt8) : Prop :=
  ∃ body es, Chars body es ∧ t = 34 :: (body ++ [34]) ∧ encode es = some s

theorem Chars.append {t t' : List UInt8} {es es' : List Element} (h : Chars t es)
    (h' : Chars t' es') : Chars (t ++ t') (es ++ es') := by
  induction h with
  | nil => exact h'
  | unescaped hc _ ih => exact .unescaped hc ih
  | letter hl _ ih => exact .letter hl ih
  | unit hu _ ih => exact .unit hu ih

/-- Texts of single characters, one after the other. -/
theorem Chars.flatMap {α : Type*} {text : α → List UInt8} {element : α → Element} {l : List α}
    (h : ∀ a ∈ l, Chars (text a) [element a]) : Chars (l.flatMap text) (l.map element) := by
  induction l with
  | nil => exact .nil
  | cons a l ih =>
    rw [List.flatMap_cons, List.map_cons, ← List.singleton_append]
    exact (h a List.mem_cons_self).append (ih fun b hb => h b (List.mem_cons_of_mem a hb))

/-- A code unit below `0x80` is one byte. -/
theorem encode_unit_of_lt {u : ℕ} (hu : u < 0x80) (es : List Element) :
    encode (.unit u :: es) = (encode es).map (UInt8.ofNat u :: ·) := by
  have hlead : isLeading u = false := by simp [isLeading]; omega
  have htrail : isTrailing u = false := by simp [isTrailing]; omega
  have hutf : ∀ n < 0x80, utf8 n = [UInt8.ofNat n] := by decide
  cases es with
  | nil => simp [encode, hlead, htrail, hutf u hu]
  | cons e es => cases e <;> simp [encode, hlead, htrail, hutf u hu]

/-! ### A text stands for one list of elements -/

/-- A letter decides the byte. -/
theorem byte_of_letter {l b b' : UInt8} (h : (l, b) ∈ letters) (h' : (l, b') ∈ letters) :
    b = b' := by
  simp only [letters, List.mem_cons, Prod.mk.injEq, List.not_mem_nil, or_false] at h h'
  rcases h with ⟨rfl, rfl⟩ | ⟨rfl, rfl⟩ | ⟨rfl, rfl⟩ | ⟨rfl, rfl⟩ | ⟨rfl, rfl⟩ | ⟨rfl, rfl⟩ |
    ⟨rfl, rfl⟩ | ⟨rfl, rfl⟩ <;> simpa [eq_comm] using h'

theorem letter_ne_u {l b : UInt8} (h : (l, b) ∈ letters) : l ≠ 117 := by
  rintro rfl
  revert h
  simp [letters]

theorem Chars.unique {t : List UInt8} {es es' : List Element} (h : Chars t es)
    (h' : Chars t es') : es = es' := by
  induction h generalizing es' with
  | nil => cases h'; rfl
  | unescaped hc _ ih =>
    cases h' with
    | unescaped _ h' => rw [ih h']
    | letter _ _ => exact absurd rfl hc.2.2
    | unit _ _ => exact absurd rfl hc.2.2
  | letter hl _ ih =>
    cases h' with
    | unescaped hc _ => exact absurd rfl hc.2.2
    | letter hl' h' => rw [ih h', byte_of_letter hl hl']
    | unit _ _ => exact absurd rfl (letter_ne_u hl)
  | unit hu _ ih =>
    cases h' with
    | unescaped hc _ => exact absurd rfl hc.2.2
    | letter hl' _ => exact absurd rfl (letter_ne_u hl')
    | unit hu' h' => rw [ih h', Option.some.inj (hu.symm.trans hu')]

/-- A text stands for at most one string. -/
theorem Decodes.unique {t s s' : List UInt8} (h : Decodes t s) (h' : Decodes t s') : s = s' := by
  obtain ⟨body, es, hes, rfl, hs⟩ := h
  obtain ⟨body', es', hes', heq, hs'⟩ := h'
  obtain rfl : body = body' := List.append_cancel_right (List.cons.inj heq).2
  rw [hes.unique hes', hs'] at hs
  exact (Option.some.inj hs).symm

theorem Decodes.isString {t s : List UInt8} (h : Decodes t s) : IsString t := by
  obtain ⟨body, es, hes, rfl, -⟩ := h
  exact ⟨body, es, hes, rfl⟩

end JsonString
