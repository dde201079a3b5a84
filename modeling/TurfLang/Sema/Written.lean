import TurfLang.Sema.Names

/-!
# What a printed type says

A printed type is a run of prefixes (`&`, `&?`, `!`, `fn(..): `), a core (a leaf, a generic struct
with its arguments, or a type in parentheses), and a run of suffixes (`*`, `[N]`). The name says
in which order the prefixes stand and in which order the suffixes stand, and nothing about which
of the two is applied first. `Written` is this reading, and a name has one reading.
-/

namespace TurfLang

/-- What can stand after the core of a printed type. -/
inductive Suffix
  | star
  | dim (size : ArraySize)
  deriving DecidableEq

/-- A printed type: prefixes, a core, and the suffixes after the core. -/
inductive Written
  | leaf (type : TurfType) (suffixes : List Suffix)
  | generic (baseName : String) (args : List Written) (suffixes : List Suffix)
  | group (inner : Written) (suffixes : List Suffix)
  | reference (rest : Written)
  | nullableReference (rest : Written)
  | errorUnion (rest : Written)
  | func (params : List Written) (rest : Written)

def Suffix.text : Suffix → List Char
  | .star => ['*']
  | .dim size => size.print.toList

def suffixText (suffixes : List Suffix) : List Char := suffixes.flatMap Suffix.text

namespace Written

/-- More suffixes after the ones that are there: they stand after the core, whatever prefixes
stand before it. -/
def add (more : List Suffix) : Written → Written
  | leaf type suffixes => leaf type (suffixes ++ more)
  | generic base args suffixes => generic base args (suffixes ++ more)
  | group inner suffixes => group inner (suffixes ++ more)
  | reference rest => reference (rest.add more)
  | nullableReference rest => nullableReference (rest.add more)
  | errorUnion rest => errorUnion (rest.add more)
  | func params rest => func params (rest.add more)

mutual

/-- The characters of a printed type. -/
def text : Written → List Char
  | leaf type suffixes => type.getName.toList ++ suffixText suffixes
  | generic base args suffixes =>
    base.toList ++ '<' :: (textList args ++ '>' :: suffixText suffixes)
  | group inner suffixes => '(' :: (inner.text ++ ')' :: suffixText suffixes)
  | reference rest => '&' :: rest.text
  | nullableReference rest => '&' :: '?' :: rest.text
  | errorUnion rest => '!' :: rest.text
  | func params rest => ['f', 'n'] ++ '(' :: (textList params ++ ')' :: ':' :: ' ' :: rest.text)

def textList : List Written → List Char
  | [] => []
  | w :: ws => w.text ++ textTail ws

/-- What follows the first type of a list. -/
def textTail : List Written → List Char
  | [] => []
  | w :: ws => ',' :: ' ' :: (w.text ++ textTail ws)

end

theorem text_add (w : Written) (more : List Suffix) :
    (w.add more).text = w.text ++ suffixText more := by
  induction w using Written.add.induct with
  | case1 | case2 | case3 => simp [add, text, suffixText]
  | case4 rest ih | case5 rest ih | case6 rest ih | case7 _ rest ih => simp [add, text, ih]

end Written

/-! ### Names and sizes -/

/-- A nonempty run of characters of a name that does not start with a digit: an identifier, or one
after its module. -/
def IsName (name : String) : Prop :=
  (∀ c ∈ name.toList, TurfType.isNameChar c = true) ∧
    ∃ c ∈ name.toList.head?, c.isDigit = false

/-- An array size as it can be written. -/
def IsSize : ArraySize → Prop
  | .unsized | .fixed _ => True
  | .param name => IsName name

/-- The words that are types of their own. -/
def reservedTypes : List TurfType :=
  [.int, .int32, .double, .bool, .char, .string, .void, .guess, .opaquePointer]

/-- A type that prints as one word: a built-in one, a struct, or the value of a size
parameter. -/
def IsLeaf (t : TurfType) : Prop :=
  t ∈ reservedTypes ∨
    (∃ name, t = .named name ∧ IsName name ∧ name ∉ TurfType.primitiveNames) ∨
      ∃ value, t = .sizeValue value

theorem isNameChar_of_isDigit {c : Char} (h : c.isDigit = true) : TurfType.isNameChar c = true := by
  simp [TurfType.isNameChar, Char.isAlphanum, h]

theorem isDigit_of_mem_toString {n : ℕ} {c : Char} (h : c ∈ (toString n).toList) :
    c.isDigit = true := by
  refine Nat.isDigit_of_mem_toDigits (b := 10) (n := n) (by decide) (by decide) ?_
  simpa using h

theorem toString_toList_ne_nil (n : ℕ) : (toString n).toList ≠ [] := by
  rw [Nat.toString_eq_repr, Nat.toList_repr]
  exact Nat.toDigits_ne_nil

theorem exists_head_toString (n : ℕ) : ∃ c ∈ (toString n).toList.head?, c.isDigit = true := by
  obtain ⟨c, cs, hcs⟩ := List.exists_cons_of_ne_nil (toString_toList_ne_nil n)
  have hc : c ∈ (toString n).toList := by
    rw [hcs]
    exact List.mem_cons_self
  refine ⟨c, ?_, isDigit_of_mem_toString hc⟩
  rw [hcs]
  rfl

theorem toString_ne_of_isName {n : ℕ} {name : String} (h : IsName name) : toString n ≠ name := by
  rintro rfl
  obtain ⟨c, hc, hdigit⟩ := exists_head_toString n
  obtain ⟨c', hc', hno⟩ := h.2
  rw [Option.mem_def] at hc hc'
  rw [hc, Option.some.injEq] at hc'
  rw [hc', hno] at hdigit
  cases hdigit

/-- The characters between the brackets. -/
def ArraySize.body : ArraySize → List Char
  | .unsized => []
  | .fixed size => (toString size).toList
  | .param name => name.toList

theorem ArraySize.print_toList (size : ArraySize) : size.print.toList = '[' :: (size.body ++ [']']) := by
  cases size <;> simp [ArraySize.print, ArraySize.body]

theorem ArraySize.body_chars {size : ArraySize} (h : IsSize size) :
    ∀ c ∈ size.body, TurfType.isNameChar c = true := by
  cases size with
  | unsized => simp [ArraySize.body]
  | fixed size => exact fun c hc => isNameChar_of_isDigit (isDigit_of_mem_toString hc)
  | param name => exact h.1

theorem ArraySize.body_inj {size size' : ArraySize} (h : IsSize size) (h' : IsSize size')
    (heq : size.body = size'.body) : size = size' := by
  have hname : ∀ {name}, IsName name → name.toList ≠ [] := by
    rintro name ⟨-, c, hc, -⟩ hnil
    rw [hnil] at hc
    cases hc
  cases size with
  | unsized =>
    cases size' with
    | unsized => rfl
    | fixed m => exact absurd heq.symm (toString_toList_ne_nil m)
    | param name => exact absurd heq.symm (hname h')
  | fixed n =>
    cases size' with
    | unsized => exact absurd heq (toString_toList_ne_nil n)
    | fixed m => rw [toString_injective (String.toList_inj.1 heq)]
    | param name => exact absurd (String.toList_inj.1 heq) (toString_ne_of_isName h')
  | param name =>
    cases size' with
    | unsized => exact absurd heq (hname h)
    | fixed m => exact absurd (String.toList_inj.1 heq).symm (toString_ne_of_isName h)
    | param name' => rw [String.toList_inj.1 heq]

theorem IsName.toList_ne_nil {name : String} (h : IsName name) : name.toList ≠ [] := by
  obtain ⟨-, c, hc, -⟩ := h
  intro hnil
  rw [hnil] at hc
  cases hc

/-- The name of a leaf is a nonempty run of characters of a name. -/
theorem IsLeaf.getName_chars {t : TurfType} (h : IsLeaf t) :
    t.getName.toList ≠ [] ∧ ∀ c ∈ t.getName.toList, TurfType.isNameChar c = true := by
  rcases h with h | ⟨name, rfl, hname, -⟩ | ⟨value, rfl⟩
  · simp only [reservedTypes, List.mem_cons, List.not_mem_nil, or_false] at h
    rcases h with rfl | rfl | rfl | rfl | rfl | rfl | rfl | rfl | rfl <;>
      exact ⟨by decide, List.all_eq_true.1 (by decide)⟩
  · exact ⟨hname.toList_ne_nil, hname.1⟩
  · exact ⟨toString_toList_ne_nil value,
      fun c hc => isNameChar_of_isDigit (isDigit_of_mem_toString hc)⟩

/-- Leaves of one name are one type. -/
theorem IsLeaf.getName_inj {t t' : TurfType} (h : IsLeaf t) (h' : IsLeaf t')
    (heq : t.getName = t'.getName) : t = t' := by
  -- a word of the language is no identifier, and neither is a number
  have hword : ∀ {u : TurfType}, u ∈ reservedTypes →
      u.getName ∈ TurfType.primitiveNames ∧ ∃ c ∈ u.getName.toList.head?, c.isDigit = false := by
    intro u hu
    simp only [reservedTypes, List.mem_cons, List.not_mem_nil, or_false] at hu
    rcases hu with rfl | rfl | rfl | rfl | rfl | rfl | rfl | rfl | rfl <;> exact ⟨by decide, _, rfl, rfl⟩
  have hvalue : ∀ {u : TurfType} {value : ℕ}, u ∈ reservedTypes →
      u.getName ≠ (TurfType.sizeValue value).getName := by
    intro u value hu hsame
    obtain ⟨c, hc, hdigit⟩ := exists_head_toString value
    obtain ⟨-, c', hc', hno⟩ := hword hu
    rw [hsame] at hc'
    rw [Option.mem_def] at hc hc'
    rw [show (TurfType.sizeValue value).getName = toString value from rfl, hc,
      Option.some.injEq] at hc'
    rw [hc', hno] at hdigit
    cases hdigit
  rcases h with h | ⟨name, rfl, hname, hfree⟩ | ⟨value, rfl⟩
  · rcases h' with h' | ⟨name, rfl, hname, hfree⟩ | ⟨value, rfl⟩
    · simp only [reservedTypes, List.mem_cons, List.not_mem_nil, or_false] at h h'
      rcases h with rfl | rfl | rfl | rfl | rfl | rfl | rfl | rfl | rfl <;>
        rcases h' with rfl | rfl | rfl | rfl | rfl | rfl | rfl | rfl | rfl <;>
          first | rfl | exact absurd heq (by decide)
    · refine absurd (hword h).1 ?_
      rw [heq]
      exact hfree
    · exact absurd heq (hvalue h)
  · rcases h' with h' | ⟨name', rfl, -, -⟩ | ⟨value, rfl⟩
    · refine absurd (hword h').1 ?_
      rw [← heq]
      exact hfree
    · exact congrArg TurfType.named heq
    · exact absurd heq.symm (toString_ne_of_isName hname)
  · rcases h' with h' | ⟨name, rfl, hname, -⟩ | ⟨value', rfl⟩
    · exact absurd heq.symm (hvalue h')
    · exact absurd heq (toString_ne_of_isName hname)
    · exact congrArg TurfType.sizeValue (toString_injective heq)

/-! ### A name has one reading -/

def Suffix.Valid : Suffix → Prop
  | .star => True
  | .dim size => IsSize size

namespace Written

mutual

/-- The leaves, the base names and the sizes of a printed type are well formed. -/
def Valid : Written → Prop
  | leaf type suffixes => IsLeaf type ∧ ∀ s ∈ suffixes, s.Valid
  | generic base args suffixes => IsName base ∧ AllValid args ∧ ∀ s ∈ suffixes, s.Valid
  | group inner suffixes => inner.Valid ∧ ∀ s ∈ suffixes, s.Valid
  | reference rest | nullableReference rest | errorUnion rest => rest.Valid
  | func params rest => AllValid params ∧ rest.Valid

def AllValid : List Written → Prop
  | [] => True
  | w :: ws => w.Valid ∧ AllValid ws

end

theorem Valid.add {w : Written} {more : List Suffix} (hw : w.Valid)
    (hmore : ∀ s ∈ more, s.Valid) : (w.add more).Valid := by
  have happend : ∀ {l : List Suffix}, (∀ s ∈ l, s.Valid) → ∀ s ∈ l ++ more, s.Valid := by
    intro l hl s hs
    rcases List.mem_append.1 hs with hs | hs
    · exact hl s hs
    · exact hmore s hs
  induction w using Written.add.induct with
  | case1 => exact ⟨hw.1, happend hw.2⟩
  | case2 => exact ⟨hw.1, hw.2.1, happend hw.2.2⟩
  | case3 => exact ⟨hw.1, happend hw.2⟩
  | case4 rest ih | case5 rest ih | case6 rest ih => exact ih hw
  | case7 _ rest ih => exact ⟨hw.1, ih hw.2⟩

end Written

/-- The texts a printed type can stand before inside a longer one. -/
def Stops (r : List Char) : Prop := ∀ c ∈ r.head?, c = ',' ∨ c = ')' ∨ c = '>'

/-- A run of characters of a name is read off the text that follows it. -/
theorem name_append_inj {l l' r r' : List Char} (hl : ∀ c ∈ l, TurfType.isNameChar c = true)
    (hl' : ∀ c ∈ l', TurfType.isNameChar c = true)
    (hr : ∀ c ∈ r.head?, TurfType.isNameChar c = false)
    (hr' : ∀ c ∈ r'.head?, TurfType.isNameChar c = false) (h : l ++ r = l' ++ r') :
    l = l' ∧ r = r' := by
  have hspan : ∀ {l r : List Char}, (∀ c ∈ l, TurfType.isNameChar c = true) →
      (∀ c ∈ r.head?, TurfType.isNameChar c = false) →
        (l ++ r).takeWhile TurfType.isNameChar = l := by
    intro l r hl hr
    rw [List.takeWhile_append_of_pos hl]
    cases r with
    | nil => simp
    | cons c r => simp [hr c rfl]
  have heq : l = l' := by rw [← hspan hl hr, h, hspan hl' hr']
  subst heq
  exact ⟨rfl, List.append_cancel_left h⟩

theorem suffixText_append_head (suffixes : List Suffix) {r : List Char} (hr : Stops r) :
    ∀ c ∈ (suffixText suffixes ++ r).head?, c = '*' ∨ c = '[' ∨ c = ',' ∨ c = ')' ∨ c = '>' := by
  intro c hc
  cases suffixes with
  | nil => exact .inr (.inr (hr c hc))
  | cons s suffixes =>
    cases s with
    | star => exact .inl (by simpa [suffixText, Suffix.text, eq_comm] using hc)
    | dim size =>
      exact .inr (.inl (by simpa [suffixText, Suffix.text, size.print_toList, eq_comm] using hc))

/-- The suffixes are read off the text that follows them. -/
theorem suffixText_inj {suffixes suffixes' : List Suffix} {r r' : List Char}
    (hs : ∀ s ∈ suffixes, s.Valid) (hs' : ∀ s ∈ suffixes', s.Valid) (hr : Stops r)
    (hr' : Stops r') (h : suffixText suffixes ++ r = suffixText suffixes' ++ r') :
    suffixes = suffixes' ∧ r = r' := by
  have hcons : ∀ (s : Suffix) (suffixes : List Suffix) (r : List Char),
      suffixText (s :: suffixes) ++ r = s.text ++ (suffixText suffixes ++ r) := by
    intro s suffixes r
    rw [suffixText, List.flatMap_cons, List.append_assoc, suffixText]
  -- a suffix starts with a character that stops nothing
  have hstop : ∀ {s : Suffix} {l r : List Char}, Stops r → r ≠ s.text ++ l := by
    rintro s l r hr rfl
    cases s with
    | star => exact absurd (hr '*' rfl) (by decide)
    | dim size => exact absurd (hr '[' (by simp [Suffix.text, size.print_toList])) (by decide)
  induction suffixes generalizing suffixes' with
  | nil =>
    cases suffixes' with
    | nil => exact ⟨rfl, h⟩
    | cons s' suffixes' =>
      rw [hcons] at h
      exact (hstop hr h).elim
  | cons s suffixes ih =>
    cases suffixes' with
    | nil =>
      rw [hcons] at h
      exact (hstop hr' h.symm).elim
    | cons s' suffixes' =>
      rw [hcons, hcons] at h
      have hhead : s = s' ∧ suffixText suffixes ++ r = suffixText suffixes' ++ r' := by
        cases s with
        | star =>
          cases s' with
          | star => exact ⟨rfl, List.tail_eq_of_cons_eq h⟩
          | dim size' => simp [Suffix.text, size'.print_toList] at h
        | dim size =>
          cases s' with
          | star => simp [Suffix.text, size.print_toList] at h
          | dim size' =>
            have hsize : IsSize size := hs _ List.mem_cons_self
            have hsize' : IsSize size' := hs' _ List.mem_cons_self
            simp only [Suffix.text, ArraySize.print_toList, List.cons_append, List.append_assoc,
              List.cons.injEq, true_and, List.nil_append] at h
            have hbracket : ∀ (l : List Char), ∀ c ∈ (']' :: l).head?,
                TurfType.isNameChar c = false := by
              rintro l c ⟨⟩
              decide
            obtain ⟨hbody, htail⟩ := name_append_inj (ArraySize.body_chars hsize)
              (ArraySize.body_chars hsize') (hbracket _) (hbracket _) h
            exact ⟨congrArg Suffix.dim (ArraySize.body_inj hsize hsize' hbody),
              List.tail_eq_of_cons_eq htail⟩
      obtain ⟨htail, hrest⟩ := ih (fun s hs₁ => hs s (List.mem_cons_of_mem _ hs₁))
        (fun s hs₁ => hs' s (List.mem_cons_of_mem _ hs₁)) hhead.2
      exact ⟨by rw [hhead.1, htail], hrest⟩

namespace Written

/-- The constructors of `Written`. -/
inductive Shape
  | leaf
  | generic
  | group
  | reference
  | nullableReference
  | errorUnion
  | func

def shape : Written → Shape
  | leaf _ _ => .leaf
  | generic _ _ _ => .generic
  | group _ _ => .group
  | reference _ => .reference
  | nullableReference _ => .nullableReference
  | errorUnion _ => .errorUnion
  | func _ _ => .func

/-- The constructor of a text that starts with a run of characters of a name and goes on with
`rest`. -/
def shapeAt : List Char → List Char → Shape
  | [], '&' :: '?' :: _ => .nullableReference
  | [], '&' :: _ => .reference
  | [], '!' :: _ => .errorUnion
  | [], '(' :: _ => .group
  | _, '(' :: _ => .func
  | _, '<' :: _ => .generic
  | _, _ => .leaf

def shapeOf (l : List Char) : Shape :=
  shapeAt (l.takeWhile TurfType.isNameChar) (l.dropWhile TurfType.isNameChar)

/-- The first character of a printed type. -/
theorem exists_text (w : Written) (hw : w.Valid) :
    ∃ c cs, w.text = c :: cs ∧ (TurfType.isNameChar c = true ∨ c = '(' ∨ c = '&' ∨ c = '!') := by
  have hname : ∀ {l r : List Char}, l ≠ [] → (∀ c ∈ l, TurfType.isNameChar c = true) →
      ∃ c cs, l ++ r = c :: cs ∧ (TurfType.isNameChar c = true ∨ c = '(' ∨ c = '&' ∨ c = '!') := by
    intro l r hne hl
    obtain ⟨c, cs, rfl⟩ := List.exists_cons_of_ne_nil hne
    exact ⟨c, cs ++ r, rfl, .inl (hl c List.mem_cons_self)⟩
  cases w with
  | leaf type suffixes => exact hname hw.1.getName_chars.1 hw.1.getName_chars.2
  | generic base args suffixes => exact hname hw.1.toList_ne_nil hw.1.1
  | group inner suffixes => exact ⟨_, _, rfl, .inr (.inl rfl)⟩
  | reference rest => exact ⟨_, _, rfl, .inr (.inr (.inl rfl))⟩
  | nullableReference rest => exact ⟨_, _, rfl, .inr (.inr (.inl rfl))⟩
  | errorUnion rest => exact ⟨_, _, rfl, .inr (.inr (.inr rfl))⟩
  | func params rest => exact ⟨_, _, rfl, .inl rfl⟩

theorem shapeOf_append {l r : List Char} (hl : ∀ c ∈ l, TurfType.isNameChar c = true)
    (hr : ∀ c ∈ r.head?, TurfType.isNameChar c = false) : shapeOf (l ++ r) = shapeAt l r := by
  have hspan : (l ++ r).takeWhile TurfType.isNameChar = l ∧
      (l ++ r).dropWhile TurfType.isNameChar = r := by
    rw [List.takeWhile_append_of_pos hl, List.dropWhile_append_of_pos hl]
    cases r with
    | nil => simp
    | cons c r => simp [hr c rfl]
  rw [shapeOf, hspan.1, hspan.2]

theorem suffixText_append_no_name {suffixes : List Suffix} {r : List Char} (hr : Stops r) :
    ∀ c ∈ (suffixText suffixes ++ r).head?, TurfType.isNameChar c = false := by
  intro c hc
  rcases suffixText_append_head _ hr c hc with rfl | rfl | rfl | rfl | rfl <;> decide

/-- The constructor of a printed type can be seen at its start. -/
theorem shapeOf_text {w : Written} (hw : w.Valid) {r : List Char} (hr : Stops r) :
    shapeOf (w.text ++ r) = w.shape := by
  have hnil : ∀ {c : Char} {cs : List Char}, TurfType.isNameChar c = false →
      shapeOf (c :: cs) = shapeAt [] (c :: cs) := by
    intro c cs hc
    refine shapeOf_append (l := []) (by simp) ?_
    rintro c ⟨⟩
    exact hc
  cases w with
  | leaf type suffixes =>
    obtain ⟨hne, hchars⟩ := hw.1.getName_chars
    rw [text, List.append_assoc, shapeOf_append hchars (suffixText_append_no_name hr)]
    obtain ⟨c, cs, hcs⟩ := List.exists_cons_of_ne_nil hne
    rw [hcs]
    have hhead := suffixText_append_head suffixes hr
    cases hrest : suffixText suffixes ++ r with
    | nil => rfl
    | cons c' cs' =>
      rw [hrest] at hhead
      rcases hhead c' rfl with rfl | rfl | rfl | rfl | rfl <;> rfl
  | generic base args suffixes =>
    rw [text, List.append_assoc, shapeOf_append hw.1.1 (by rintro c ⟨⟩; decide)]
    obtain ⟨c, cs, hcs⟩ := List.exists_cons_of_ne_nil hw.1.toList_ne_nil
    rw [hcs]
    rfl
  | group inner suffixes => exact hnil (by decide)
  | reference rest =>
    obtain ⟨c, cs, hcs, hc⟩ := exists_text rest hw
    have hmark : c ≠ '?' := by
      rintro rfl
      revert hc
      decide
    rw [text, List.cons_append, hnil (by decide), hcs]
    unfold shapeAt
    simp [hmark, shape]
  | nullableReference rest => exact hnil (by decide)
  | errorUnion rest => exact hnil (by decide)
  | func params rest =>
    rw [text, List.append_assoc, shapeOf_append (List.all_eq_true.1 (by decide))
      (by rintro c ⟨⟩; decide)]
    rfl

theorem stops_textTail (ws : List Written) {c : Char} (hc : c = ')' ∨ c = '>') (r : List Char) :
    Stops (textTail ws ++ c :: r) := by
  cases ws with
  | nil =>
    rintro c ⟨⟩
    exact .inr hc
  | cons w ws =>
    rintro c ⟨⟩
    exact .inl rfl

/-- No printed type starts where a list ends. -/
theorem text_ne_close {w : Written} (hw : w.Valid) {c : Char} (hc : c = ')' ∨ c = '>')
    {l r : List Char} : w.text ++ l ≠ c :: r := by
  obtain ⟨c', cs, hcs, hc'⟩ := exists_text w hw
  rw [hcs]
  rintro ⟨⟩
  rcases hc with rfl | rfl <;> revert hc' <;> decide

mutual

/-- A printed type is read off the text that follows it. -/
theorem text_append_inj (w w' : Written) (hw : w.Valid) (hw' : w'.Valid) (r r' : List Char)
    (hr : Stops r) (hr' : Stops r') (h : w.text ++ r = w'.text ++ r') : w = w' ∧ r = r' := by
  have hshape : w.shape = w'.shape := by rw [← shapeOf_text hw hr, h, shapeOf_text hw' hr']
  cases w with
  | leaf type suffixes =>
    cases w' with
    | leaf type' suffixes' =>
      rw [text, text, List.append_assoc, List.append_assoc] at h
      obtain ⟨hname, hrest⟩ := name_append_inj hw.1.getName_chars.2 hw'.1.getName_chars.2
        (suffixText_append_no_name hr) (suffixText_append_no_name hr') h
      obtain ⟨hsuffixes, hend⟩ := suffixText_inj hw.2 hw'.2 hr hr' hrest
      exact ⟨by rw [hw.1.getName_inj hw'.1 (String.toList_inj.1 hname), hsuffixes], hend⟩
    | _ => cases hshape
  | generic base args suffixes =>
    cases w' with
    | generic base' args' suffixes' =>
      have hopen : ∀ (l : List Char), ∀ c ∈ ('<' :: l).head?, TurfType.isNameChar c = false := by
        rintro l c ⟨⟩
        decide
      simp only [text, List.append_assoc, List.cons_append] at h
      obtain ⟨hname, hrest⟩ := name_append_inj hw.1.1 hw'.1.1 (hopen _) (hopen _) h
      obtain ⟨hargs, hclose⟩ := textList_inj args args' hw.2.1 hw'.2.1 '>' (.inr rfl) _ _
        (List.tail_eq_of_cons_eq hrest)
      obtain ⟨hsuffixes, hend⟩ := suffixText_inj hw.2.2 hw'.2.2 hr hr' hclose
      exact ⟨by rw [String.toList_inj.1 hname, hargs, hsuffixes], hend⟩
    | _ => cases hshape
  | group inner suffixes =>
    cases w' with
    | group inner' suffixes' =>
      have hstop : ∀ l, Stops (')' :: l) := by
        rintro l c ⟨⟩
        exact .inr (.inl rfl)
      simp only [text, List.append_assoc, List.cons_append] at h
      obtain ⟨hin, hrest⟩ := text_append_inj inner inner' hw.1 hw'.1 _ _ (hstop _) (hstop _)
        (List.tail_eq_of_cons_eq h)
      obtain ⟨hsuffixes, hend⟩ := suffixText_inj hw.2 hw'.2 hr hr' (List.tail_eq_of_cons_eq hrest)
      exact ⟨by rw [hin, hsuffixes], hend⟩
    | _ => cases hshape
  | reference rest =>
    cases w' with
    | reference rest' =>
      obtain ⟨hrest, hend⟩ := text_append_inj rest rest' hw hw' r r' hr hr'
        (List.tail_eq_of_cons_eq h)
      exact ⟨by rw [hrest], hend⟩
    | _ => cases hshape
  | nullableReference rest =>
    cases w' with
    | nullableReference rest' =>
      obtain ⟨hrest, hend⟩ := text_append_inj rest rest' hw hw' r r' hr hr'
        (List.tail_eq_of_cons_eq (List.tail_eq_of_cons_eq h))
      exact ⟨by rw [hrest], hend⟩
    | _ => cases hshape
  | errorUnion rest =>
    cases w' with
    | errorUnion rest' =>
      obtain ⟨hrest, hend⟩ := text_append_inj rest rest' hw hw' r r' hr hr'
        (List.tail_eq_of_cons_eq h)
      exact ⟨by rw [hrest], hend⟩
    | _ => cases hshape
  | func params rest =>
    cases w' with
    | func params' rest' =>
      simp only [text, List.cons_append, List.nil_append, List.append_assoc, List.cons.injEq,
        true_and] at h
      obtain ⟨hparams, hrest⟩ := textList_inj params params' hw.1 hw'.1 ')' (.inl rfl) _ _ h
      obtain ⟨hret, hend⟩ := text_append_inj rest rest' hw.2 hw'.2 r r' hr hr'
        (List.tail_eq_of_cons_eq (List.tail_eq_of_cons_eq hrest))
      exact ⟨by rw [hparams, hret], hend⟩
    | _ => cases hshape

/-- A list of printed types is read off the text up to the character that closes it. -/
theorem textList_inj (ws ws' : List Written) (hws : AllValid ws) (hws' : AllValid ws')
    (c : Char) (hc : c = ')' ∨ c = '>') (r r' : List Char)
    (h : textList ws ++ c :: r = textList ws' ++ c :: r') : ws = ws' ∧ r = r' := by
  match ws, ws' with
  | [], [] => exact ⟨rfl, List.tail_eq_of_cons_eq h⟩
  | [], w' :: ws' =>
    rw [textList, textList, List.append_assoc] at h
    exact (text_ne_close hws'.1 hc h.symm).elim
  | w :: ws, [] =>
    rw [textList, textList, List.append_assoc] at h
    exact (text_ne_close hws.1 hc h).elim
  | w :: ws, w' :: ws' =>
    rw [textList, textList, List.append_assoc, List.append_assoc] at h
    obtain ⟨hhead, htail⟩ := text_append_inj w w' hws.1 hws'.1 _ _ (stops_textTail ws hc r)
      (stops_textTail ws' hc r') h
    obtain ⟨hrest, hend⟩ := textTail_inj ws ws' hws.2 hws'.2 c hc r r' htail
    exact ⟨by rw [hhead, hrest], hend⟩

/-- The rest of such a list. -/
theorem textTail_inj (ws ws' : List Written) (hws : AllValid ws) (hws' : AllValid ws')
    (c : Char) (hc : c = ')' ∨ c = '>') (r r' : List Char)
    (h : textTail ws ++ c :: r = textTail ws' ++ c :: r') : ws = ws' ∧ r = r' := by
  match ws, ws' with
  | [], [] => exact ⟨rfl, List.tail_eq_of_cons_eq h⟩
  | [], w' :: ws' =>
    obtain rfl : c = ',' := by simpa [textTail] using congrArg List.head? h
    exact absurd hc (by decide)
  | w :: ws, [] =>
    obtain rfl : c = ',' := by simpa [textTail, eq_comm] using congrArg List.head? h
    exact absurd hc (by decide)
  | w :: ws, w' :: ws' =>
    simp only [textTail, List.append_assoc, List.cons_append] at h
    obtain ⟨hhead, htail⟩ := text_append_inj w w' hws.1 hws'.1 _ _ (stops_textTail ws hc r)
      (stops_textTail ws' hc r') (List.tail_eq_of_cons_eq (List.tail_eq_of_cons_eq h))
    obtain ⟨hrest, hend⟩ := textTail_inj ws ws' hws.2 hws'.2 c hc r r' htail
    exact ⟨by rw [hhead, hrest], hend⟩

end

/-- Types that print alike read alike. -/
theorem text_inj {w w' : Written} (hw : w.Valid) (hw' : w'.Valid) (h : w.text = w'.text) :
    w = w' := by
  have hnil : Stops [] := by
    rintro c ⟨⟩
  exact (text_append_inj w w' hw hw' [] [] hnil hnil (by rw [h])).1

end Written

end TurfLang
