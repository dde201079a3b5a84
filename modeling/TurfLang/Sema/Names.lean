import TurfLang.Sema.Types

/-!
# Printed names

A printed name does not determine its type: `(&T)*` and `&(T*)` are both `&T*`, and
`(fn(): R)*` and `fn(): R*` are both `fn(): R*`. What it does determine is shown here for the
plain types, the closed types without generic structs: which of them print as a primitive, and
that a function type's name determines the names of its parameters and of its result.
-/

namespace TurfLang

theorem toString_injective : Function.Injective (toString : ℕ → String) := by
  intro m n h
  have hdigits : Nat.toDigits 10 m = Nat.toDigits 10 n := by
    rw [← Nat.toList_repr, ← Nat.toList_repr]
    exact congrArg String.toList h
  rw [← Nat.ofDigitChars_ten_toDigits (n := m), hdigits, Nat.ofDigitChars_ten_toDigits]

namespace TurfType

/-- A character of an identifier, or of the `::` after a module. -/
def isNameChar (c : Char) : Bool := c.isAlphanum || c = '_' || c = ':'

/-- The names a declaration cannot take. -/
def primitiveNames : List String :=
  ["int", "int32", "double", "bool", "char", "string", "<error>", "void", "guess", "null", "ptr"]

/-- The name of a struct. -/
def IsTypeName (name : String) : Prop :=
  (∀ c ∈ name.toList, isNameChar c = true) ∧ name ∉ primitiveNames

mutual

/-- A closed type of primitives, structs, pointers, references, arrays and function types. -/
def Plain : TurfType → Prop
  | .named name => IsTypeName name
  | .array e size =>
    e.Plain ∧
      match size with
      | .param _ => False
      | _ => True
  | .pointer p | .reference p | .nullableReference p => p.Plain
  | .func ret params => ret.Plain ∧ AllPlain params
  | .genericParam _ | .sizeValue _ | .generic _ _ | .enum _ _ | .machine _ | .userError _
  | .errorUnion _ => False
  | _ => True

def AllPlain : List TurfType → Prop
  | [] => True
  | t :: ts => t.Plain ∧ AllPlain ts

end

theorem AllPlain.get {ts : List TurfType} (h : AllPlain ts) {i : ℕ} {t : TurfType}
    (ht : ts[i]? = some t) : t.Plain := by
  induction ts generalizing i with
  | nil => simp at ht
  | cons u us ih =>
    cases i with
    | zero =>
      obtain rfl : u = t := by simpa using ht
      exact h.1
    | succ i => exact ih h.2 (by simpa using ht)

/-! ### The shape of a name -/

section Shape

attribute [local simp] getName printFrom withDimsParen

theorem getName_pointer (p : TurfType) : (pointer p).getName.toList = p.getName.toList ++ ['*'] := by
  simp [withDims]

theorem exists_getName_reference (p : TurfType) :
    ∃ l r : List Char, (reference p).getName.toList = '&' :: (l ++ p.getName.toList ++ r) ∧
      (l = [] ∧ r = [] ∨ l = ['('] ∧ r = [')']) := by
  by_cases hp : p.isArray = true
  · exact ⟨['('], [')'], by simp [hp], .inr ⟨rfl, rfl⟩⟩
  · exact ⟨[], [], by simp [hp], .inl ⟨rfl, rfl⟩⟩

theorem exists_getName_nullableReference (p : TurfType) :
    ∃ l r : List Char,
      (nullableReference p).getName.toList = '&' :: '?' :: (l ++ p.getName.toList ++ r) ∧
      (l = [] ∧ r = [] ∨ l = ['('] ∧ r = [')']) := by
  by_cases hp : p.isArray = true
  · exact ⟨['('], [')'], by simp [hp], .inr ⟨rfl, rfl⟩⟩
  · exact ⟨[], [], by simp [hp], .inl ⟨rfl, rfl⟩⟩

theorem getName_func (ret : TurfType) (params : List TurfType) :
    (func ret params).getName.toList =
      ['f', 'n', '('] ++ (printList params).toList ++ ')' :: ':' :: ' ' :: ret.getName.toList := by
  simp

end Shape

end TurfType

theorem ArraySize.print_getLast (size : ArraySize) : size.print.toList.getLast? = some ']' := by
  cases size with
  | unsized => rfl
  | fixed size => rw [ArraySize.print, String.toList_append, List.getLast?_append]; rfl
  | param name => rw [ArraySize.print, String.toList_append, List.getLast?_append]; rfl

namespace TurfType

/-- The dimensions collected so far stand in a name as they are, and what follows them ends with
a bracket. -/
theorem exists_printFrom_some (t : TurfType) :
    ∃ base post : List Char, (post = [] ∨ post.getLast? = some ']') ∧
      ∀ dims, (t.printFrom (some dims)).toList = base ++ dims.toList ++ post := by
  cases t with
  | array e size =>
    obtain ⟨base, post, hpost, h⟩ := exists_printFrom_some e
    refine ⟨base, size.print.toList ++ post, .inr ?_, fun dims => ?_⟩
    · rcases hpost with rfl | hpost
      · rw [List.append_nil, size.print_getLast]
      · rw [List.getLast?_append, hpost, Option.some_or]
    · simp [printFrom, h]
  | reference p =>
    exact ⟨'(' :: (reference p).getName.toList ++ [')'], [], .inl rfl, fun dims => by
      simp [getName, printFrom, withDimsParen]⟩
  | nullableReference p =>
    exact ⟨'(' :: (nullableReference p).getName.toList ++ [')'], [], .inl rfl, fun dims => by
      simp [getName, printFrom, withDimsParen]⟩
  | func ret params =>
    exact ⟨'(' :: (func ret params).getName.toList ++ [')'], [], .inl rfl, fun dims => by
      simp [getName, printFrom, withDimsParen]⟩
  | _ =>
    exact ⟨_, [], .inl rfl, fun dims => by
      rw [printFrom, withDims, String.toList_append, List.append_nil]⟩

/-- The name of an array ends with a bracket. -/
theorem getName_array_getLast (e : TurfType) (size : ArraySize) :
    (array e size).getName.toList.getLast? = some ']' := by
  obtain ⟨base, post, hpost, h⟩ := exists_printFrom_some e
  rw [getName, printFrom, h]
  rcases hpost with rfl | hpost
  · simp [List.getLast?_append, size.print_getLast]
  · rw [List.getLast?_append, hpost, Option.some_or]

/-- Arrays of one element type print alike only when they have the same size. -/
theorem print_eq_of_getName {e : TurfType} {n m : ArraySize}
    (h : (array e n).getName = (array e m).getName) : n.print = m.print := by
  obtain ⟨base, post, -, hname⟩ := exists_printFrom_some e
  rw [← String.toList_inj, getName, getName, printFrom, printFrom, hname, hname] at h
  have hdims := List.append_cancel_left (List.append_cancel_right h)
  simpa [String.toList_inj] using hdims

/-! ### Primitive names -/

/-- A character that no primitive's name has. -/
def isMark (c : Char) : Bool := c == '*' || c == '&' || c == ']' || c == '('

/-- A plain type is a primitive, a struct, or prints with such a character. -/
theorem primitive_or_named_or_mark (t : TurfType) (ht : t.Plain) :
    t ∈ [int, int32, double, bool, char, string, anyError, void, guess, null, opaquePointer] ∨
      (∃ name, t = named name ∧ IsTypeName name) ∨ ∃ c ∈ t.getName.toList, isMark c = true := by
  cases t with
  | named name => exact .inr (.inl ⟨name, rfl, ht⟩)
  | pointer p => exact .inr (.inr ⟨'*', by simp [getName_pointer], rfl⟩)
  | reference p =>
    obtain ⟨l, r, hname, -⟩ := exists_getName_reference p
    exact .inr (.inr ⟨'&', by simp [hname], rfl⟩)
  | nullableReference p =>
    obtain ⟨l, r, hname, -⟩ := exists_getName_nullableReference p
    exact .inr (.inr ⟨'&', by simp [hname], rfl⟩)
  | array e size =>
    exact .inr (.inr ⟨']', List.mem_of_getLast? (getName_array_getLast e size), rfl⟩)
  | func ret params => exact .inr (.inr ⟨'(', by simp [getName_func], rfl⟩)
  | genericParam | sizeValue | generic | enum | machine | userError | errorUnion => exact ht.elim
  | _ => exact .inl (by simp)

/-- The types that print as a primitive are the primitives. -/
theorem primitive_of_getName {t : TurfType} (ht : t.Plain) (h : t.getName ∈ primitiveNames) :
    t ∈ [int, int32, double, bool, char, string, anyError, void, guess, null, opaquePointer] := by
  rcases primitive_or_named_or_mark t ht with hprim | ⟨name, rfl, hname⟩ | ⟨c, hc, hmark⟩
  · exact hprim
  · exact (hname.2 h).elim
  · have hno : primitiveNames.all (fun s => s.toList.all fun c => !isMark c) = true := rfl
    have hc' := List.all_eq_true.1 (List.all_eq_true.1 hno _ h) c hc
    rw [hmark] at hc'
    cases hc'

theorem eq_opaquePointer_of_getName {t : TurfType} (ht : t.Plain) (h : t.getName = "ptr") :
    t = opaquePointer := by
  have hprim := primitive_of_getName ht (by rw [h]; decide)
  simp only [List.mem_cons, List.not_mem_nil, or_false] at hprim
  rcases hprim with rfl | rfl | rfl | rfl | rfl | rfl | rfl | rfl | rfl | rfl | rfl
  all_goals first | rfl | exact absurd h (by decide)

theorem eq_void_of_getName {t : TurfType} (ht : t.Plain) (h : t.getName = "void") : t = void := by
  have hprim := primitive_of_getName ht (by rw [h]; decide)
  simp only [List.mem_cons, List.not_mem_nil, or_false] at hprim
  rcases hprim with rfl | rfl | rfl | rfl | rfl | rfl | rfl | rfl | rfl | rfl | rfl
  all_goals first | rfl | exact absurd h (by decide)

/-- Only a pointer to `void` prints as `void*`. -/
theorem eq_pointer_void_of_getName {t : TurfType} (ht : t.Plain) (h : t.getName = "void*") :
    t = pointer void := by
  have hlist : t.getName.toList = ['v', 'o', 'i', 'd', '*'] := by rw [h]; rfl
  cases t with
  | pointer p =>
    rw [getName_pointer] at hlist
    have hp : p.getName.toList = ['v', 'o', 'i', 'd'] :=
      List.append_cancel_right (hlist.trans (show _ = ['v', 'o', 'i', 'd'] ++ ['*'] from rfl))
    have hvoid : p = void := eq_void_of_getName ht (String.toList_inj.1 hp)
    rw [hvoid]
  | named name =>
    refine absurd (ht.1 '*' ?_) (by decide)
    show '*' ∈ (named name).getName.toList
    rw [hlist]
    decide
  | reference p =>
    obtain ⟨l, r, hname, -⟩ := exists_getName_reference p
    rw [hname] at hlist
    cases hlist
  | nullableReference p =>
    obtain ⟨l, r, hname, -⟩ := exists_getName_nullableReference p
    rw [hname] at hlist
    cases hlist
  | array e size =>
    have hlast := getName_array_getLast e size
    rw [hlist] at hlast
    exact absurd hlast (by decide)
  | func ret params =>
    rw [getName_func] at hlist
    cases hlist
  | genericParam | sizeValue | generic | enum | machine | userError | errorUnion => exact ht.elim
  | _ => exact absurd h (by decide)

/-! ### Function types -/

/-- What is left of a text from the first comma or closing parenthesis outside parentheses on. -/
def skip : ℕ → List Char → List Char
  | _, [] => []
  | depth, '(' :: cs => skip (depth + 1) cs
  | 0, ')' :: cs => ')' :: cs
  | depth + 1, ')' :: cs => skip depth cs
  | 0, ',' :: cs => ',' :: cs
  | depth, _ :: cs => skip depth cs

/-- A text whose parentheses match, with no comma outside them. -/
def Closed (l : List Char) : Prop := ∀ depth r, skip depth (l ++ r) = skip depth r

/-- A text whose parentheses match. -/
def Balanced (l : List Char) : Prop := ∀ depth r, skip (depth + 1) (l ++ r) = skip (depth + 1) r

theorem Closed.balanced {l : List Char} (h : Closed l) : Balanced l := fun _ _ => h _ _

theorem Closed.append {l r : List Char} (hl : Closed l) (hr : Closed r) : Closed (l ++ r) :=
  fun depth t => by rw [List.append_assoc, hl, hr]

theorem Balanced.append {l r : List Char} (hl : Balanced l) (hr : Balanced r) :
    Balanced (l ++ r) :=
  fun depth t => by rw [List.append_assoc, hl, hr]

/-- A character other than the two parentheses and the comma. -/
def isPlainChar (c : Char) : Bool := c != '(' && c != ')' && c != ','

theorem closed_of_all {l : List Char} (h : l.all isPlainChar = true) : Closed l := by
  induction l with
  | nil => exact fun depth r => rfl
  | cons c l ih =>
    rw [List.all_cons, Bool.and_eq_true] at h
    have hc := h.1
    simp only [isPlainChar, Bool.and_eq_true, bne_iff_ne] at hc
    intro depth r
    rw [List.cons_append, skip]
    · exact ih h.2 depth r
    all_goals simp_all

theorem Balanced.paren {l : List Char} (h : Balanced l) : Closed ('(' :: (l ++ [')'])) := by
  intro depth r
  rw [List.cons_append, List.append_assoc, skip, h, List.singleton_append, skip]

theorem isNameChar_closed {l : List Char} (h : ∀ c ∈ l, isNameChar c = true) : Closed l := by
  refine closed_of_all (List.all_eq_true.2 fun c hc => ?_)
  have hchar := h c hc
  unfold isPlainChar
  simp only [Bool.and_eq_true, bne_iff_ne]
  refine ⟨⟨?_, ?_⟩, ?_⟩
  all_goals
    rintro rfl
    exact absurd hchar (by decide)

theorem print_closed {size : ArraySize} (h : ∀ name, size ≠ .param name) :
    Closed size.print.toList := by
  cases size with
  | unsized => exact closed_of_all rfl
  | fixed size =>
    have hdigits : ∀ c ∈ (toString size).toList, isNameChar c = true := by
      intro c hc
      have hdigit : c.isDigit = true := by
        refine Nat.isDigit_of_mem_toDigits (b := 10) (n := size) (by decide) (by decide) ?_
        simpa using hc
      simp [isNameChar, Char.isAlphanum, hdigit]
    rw [ArraySize.print, String.toList_append, String.toList_append]
    exact ((closed_of_all rfl).append (isNameChar_closed hdigits)).append (closed_of_all rfl)
  | param name => exact (h name rfl).elim

theorem withDims_closed {base : String} {dims : Option String} (hbase : Closed base.toList)
    (hdims : ∀ d ∈ dims, Closed d.toList) : Closed (withDims base dims).toList := by
  cases dims with
  | none => exact hbase
  | some d =>
    rw [withDims, String.toList_append]
    exact hbase.append (hdims d rfl)

theorem withDimsParen_closed {base : String} {dims : Option String} (hbase : Closed base.toList)
    (hdims : ∀ d ∈ dims, Closed d.toList) : Closed (withDimsParen base dims).toList := by
  cases dims with
  | none => exact hbase
  | some d =>
    have hparen : ("(" ++ base ++ ")").toList = '(' :: (base.toList ++ [')']) := by simp
    rw [withDimsParen, String.toList_append, hparen]
    exact hbase.balanced.paren.append (hdims d rfl)

mutual

/-- The name of a plain type is closed: a list of them can be split at its commas. -/
theorem printFrom_closed (t : TurfType) (ht : t.Plain) (dims : Option String)
    (hdims : ∀ d ∈ dims, Closed d.toList) : Closed (t.printFrom dims).toList := by
  cases t with
  | named name => exact withDims_closed (isNameChar_closed ht.1) hdims
  | array e size =>
    refine printFrom_closed e ht.1 _ ?_
    rintro d ⟨⟩
    have hsize : Closed size.print.toList := by
      refine print_closed ?_
      rintro name rfl
      exact ht.2
    cases dims with
    | none => simpa using hsize
    | some d =>
      rw [Option.getD_some, String.toList_append]
      exact (hdims d rfl).append hsize
  | pointer p =>
    refine withDims_closed ?_ hdims
    rw [String.toList_append]
    exact (printFrom_closed p ht none (by simp)).append (closed_of_all rfl)
  | reference p =>
    have hp := printFrom_closed p ht none (by simp)
    refine withDimsParen_closed ?_ hdims
    by_cases harr : p.isArray = true
    · have hname : ("&(" ++ p.printFrom none ++ ")").toList =
          ['&'] ++ ('(' :: ((p.printFrom none).toList ++ [')'])) := by simp
      rw [if_pos harr, hname]
      exact (closed_of_all rfl).append hp.balanced.paren
    · rw [if_neg harr, String.toList_append]
      exact (closed_of_all rfl).append hp
  | nullableReference p =>
    have hp := printFrom_closed p ht none (by simp)
    refine withDimsParen_closed ?_ hdims
    by_cases harr : p.isArray = true
    · have hname : ("&?(" ++ p.printFrom none ++ ")").toList =
          ['&', '?'] ++ ('(' :: ((p.printFrom none).toList ++ [')'])) := by simp
      rw [if_pos harr, hname]
      exact (closed_of_all rfl).append hp.balanced.paren
    · rw [if_neg harr, String.toList_append]
      exact (closed_of_all rfl).append hp
  | func ret params =>
    refine withDimsParen_closed ?_ hdims
    have hname : ("fn(" ++ printList params ++ "): " ++ ret.printFrom none).toList =
        ['f', 'n'] ++ ('(' :: ((printList params).toList ++ [')'])) ++
          ([':', ' '] ++ (ret.printFrom none).toList) := by simp
    rw [hname]
    refine ((closed_of_all rfl).append (printList_balanced params ht.2).paren).append ?_
    exact (closed_of_all rfl).append (printFrom_closed ret ht.1 none (by simp))
  | genericParam | sizeValue | generic | enum | machine | userError | errorUnion => exact ht.elim
  | _ => exact withDims_closed (closed_of_all rfl) hdims

theorem printList_balanced (ts : List TurfType) (hts : AllPlain ts) :
    Balanced (printList ts).toList := by
  match ts with
  | [] => exact fun _ _ => rfl
  | [t] => exact (printFrom_closed t hts.1 none (by simp)).balanced
  | t :: t' :: ts =>
    have hcomma : Balanced ", ".toList := fun _ _ => rfl
    rw [printList, String.toList_append, String.toList_append]
    exact ((printFrom_closed t hts.1 none (by simp)).balanced.append hcomma).append
      (printList_balanced (t' :: ts) hts.2)

end

theorem getName_closed {t : TurfType} (ht : t.Plain) : Closed t.getName.toList :=
  printFrom_closed t ht none (by simp)

/-- A name is read off a text up to the comma or the parenthesis after it. -/
theorem getName_append_inj {t t' : TurfType} {c c' : Char} {r r' : List Char} (ht : t.Plain)
    (ht' : t'.Plain) (hc : c = ',' ∨ c = ')') (hc' : c' = ',' ∨ c' = ')')
    (h : t.getName.toList ++ c :: r = t'.getName.toList ++ c' :: r') :
    t.getName = t'.getName ∧ c :: r = c' :: r' := by
  have hskip := congrArg (skip 0) h
  rw [getName_closed ht, getName_closed ht'] at hskip
  have hstop : ∀ {c : Char} {r : List Char}, c = ',' ∨ c = ')' → skip 0 (c :: r) = c :: r := by
    rintro c r (rfl | rfl) <;> rfl
  rw [hstop hc, hstop hc'] at hskip
  rw [hskip] at h
  exact ⟨String.toList_inj.1 (List.append_cancel_right h), hskip⟩

/-- A list of as many parameters is read off a text up to the closing parenthesis. -/
theorem printList_inj {ts ts' : List TurfType} {r r' : List Char} (hts : AllPlain ts)
    (hts' : AllPlain ts') (hlen : ts.length = ts'.length)
    (h : (printList ts).toList ++ ')' :: r = (printList ts').toList ++ ')' :: r') :
    ts.map getName = ts'.map getName ∧ r = r' := by
  match ts, ts' with
  | [], [] => exact ⟨rfl, by simpa [printList] using h⟩
  | [t], [t'] =>
    obtain ⟨hname, hr⟩ := getName_append_inj hts.1 hts'.1 (.inr rfl) (.inr rfl) h
    exact ⟨by simp [hname], List.tail_eq_of_cons_eq hr⟩
  | t :: u :: us, t' :: u' :: us' =>
    have hlist : ∀ (t u : TurfType) (us : List TurfType) (r : List Char),
        (printList (t :: u :: us)).toList ++ ')' :: r =
          t.getName.toList ++ ',' :: (' ' :: ((printList (u :: us)).toList ++ ')' :: r)) := by
      intro t u us r
      simp [printList, getName]
    rw [hlist, hlist] at h
    obtain ⟨hname, hr⟩ := getName_append_inj hts.1 hts'.1 (.inl rfl) (.inl rfl) h
    obtain ⟨hnames, hr⟩ := printList_inj hts.2 hts'.2 (by simpa using hlen)
      (List.tail_eq_of_cons_eq (List.tail_eq_of_cons_eq hr))
    exact ⟨by rw [List.map_cons, hname, hnames]; rfl, hr⟩
  | [_], [] | [], [_] | _ :: _ :: _, [] | [], _ :: _ :: _ | [_], _ :: _ :: _
  | _ :: _ :: _, [_] => simp at hlen

/-- Function types of as many parameters that print alike have parameters and results that do. -/
theorem getName_func_inj {ret ret' : TurfType} {params params' : List TurfType}
    (hf : (func ret params).Plain) (hf' : (func ret' params').Plain)
    (hlen : params.length = params'.length)
    (h : (func ret params).getName = (func ret' params').getName) :
    params.map getName = params'.map getName ∧ ret.getName = ret'.getName := by
  rw [← String.toList_inj, getName_func, getName_func, List.append_assoc, List.append_assoc] at h
  obtain ⟨hparams, hret⟩ := printList_inj hf.2 hf'.2 hlen (List.append_cancel_left h)
  refine ⟨hparams, String.toList_inj.1 ?_⟩
  exact List.tail_eq_of_cons_eq (List.tail_eq_of_cons_eq hret)

end TurfType

end TurfLang
