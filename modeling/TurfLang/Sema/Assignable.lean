import TurfLang.Sema.Compatible
import TurfLang.Sema.Names

/-!
# Implicit assignability, judged

`Usable From To` says when every value of `From` may stand where a `To` is expected: the numeric
widenings, `null` and untyped pointers where a pointer may be null, references where a pointer
with the same pointee is wanted, an array where one of any length is, and a function where one is
wanted that is called with less and promises less. Function parameters flow the other way.

`typesCompatible` lets through more. `Misjudged` names the pairs it is wrong about, and
`typesCompatible_sound_iff` says that there are no others.
-/

namespace TurfLang

/-- The LLVM types of `getLLVMType`, as far as two of them can differ. -/
inductive LLVMType
  | i64
  | i32
  | double
  | i1
  | i8
  | void
  | ptr
  | slice
  | array (element : LLVMType) (size : ℕ)
  | struct (name : String)
  | fallible

namespace TurfType

/-- `getLLVMType`: the run-time representation. -/
def getLLVMType : TurfType → LLVMType
  | .int | .enum _ _ | .machine _ => .i64
  | .int32 => .i32
  | .double => .double
  | .bool => .i1
  | .char => .i8
  | .string | .opaquePointer | .null | .anyError | .userError _ | .func _ _ => .ptr
  | .pointer _ | .reference _ | .nullableReference _ => .ptr
  | .void => .void
  | .array e (.fixed size) => if 0 < size then .array e.getLLVMType size else .slice
  | .array _ _ => .slice
  | .named name => .struct name
  | .generic base args => .struct (generic base args).getMangledName
  | .errorUnion _ => .fallible
  | .genericParam _ | .sizeValue _ | .guess => .double

/-- The types whose values may be null. -/
inductive Nullable : TurfType → Prop
  | opaquePointer : Nullable .opaquePointer
  | pointer (p : TurfType) : Nullable (.pointer p)
  | nullableReference (p : TurfType) : Nullable (.nullableReference p)

/-- The untyped pointers `ptr` and `void*`. -/
inductive Untyped : TurfType → Prop
  | opaquePointer : Untyped .opaquePointer
  | void : Untyped (.pointer .void)

/-- Every value of the first type is usable as one of the second. -/
inductive Usable : TurfType → TurfType → Prop
  | refl (T : TurfType) : Usable T T
  | int_double : Usable .int .double
  | int32_int : Usable .int32 .int
  | int32_double : Usable .int32 .double
  | null {T : TurfType} (hT : T.Nullable) : Usable .null T
  | fromUntyped {F T : TurfType} (hF : F.Untyped) (hT : T.Nullable) : Usable F T
  | toUntyped {F T : TurfType} (hF : F.isPointer = true) (hT : T.Untyped) : Usable F T
  | reference_pointer (p : TurfType) : Usable (.reference p) (.pointer p)
  | reference_nullable (p : TurfType) : Usable (.reference p) (.nullableReference p)
  | nullable_pointer (p : TurfType) : Usable (.nullableReference p) (.pointer p)
  | array (e : TurfType) (size : ArraySize) : Usable (.array e size) (.array e .unsized)
  | func {r r' : TurfType} {ps ps' : List TurfType} (hlen : ps.length = ps'.length)
      (harg : ∀ (i : ℕ) (p p' : TurfType), ps[i]? = some p → ps'[i]? = some p' →
        Usable p' p)
      (hrepr : ∀ (i : ℕ) (p p' : TurfType), ps[i]? = some p → ps'[i]? = some p' →
        p'.getLLVMType = p.getLLVMType)
      (hres : Usable r r') : Usable (.func r ps) (.func r' ps')

/-- Nothing but a `&T` is usable as a `&T`: not `null`, no `ptr`, no `T*`, no `&?T`. -/
theorem Usable.eq_reference {F p : TurfType} (h : Usable F (.reference p)) : F = .reference p := by
  generalize hT : reference p = T at h
  cases h with
  | refl => rfl
  | null hT' => subst hT; cases hT'
  | fromUntyped _ hT' => subst hT; cases hT'
  | toUntyped _ hT' => subst hT; cases hT'
  | _ => cases hT

/-- Nothing but a `T[N]` is usable as a `T[N]`: a slice never becomes a fixed array. -/
theorem Usable.eq_fixedArray {F e : TurfType} {n : ℕ} (h : Usable F (.array e (.fixed n))) :
    F = .array e (.fixed n) := by
  generalize hT : array e (.fixed n) = T at h
  cases h with
  | refl => rfl
  | null hT' => subst hT; cases hT'
  | fromUntyped _ hT' => subst hT; cases hT'
  | toUntyped _ hT' => subst hT; cases hT'

/-- Pairs that are taken for one another: types that print alike and are not the same, as far as
the code compares them by their names, and the type of `null` itself as a target. -/
inductive Confused : TurfType → TurfType → Prop
  | sameName {F T : TurfType} (hF : F.isArray = false) (hT : T.isArray = false)
      (hname : F.getName = T.getName) (hne : F ≠ T) : Confused F T
  | element {e e' : TurfType} {n m : ArraySize} (hsize : sizeOk n m = true)
      (helem : e.isEquivalent e' = true) (hne : e ≠ e') : Confused (.array e n) (.array e' m)
  | reference_pointer {p p' : TurfType} (hp : p.isEquivalent p' = true) (hne : p ≠ p') :
      Confused (.reference p) (.pointer p')
  | reference_nullable {p p' : TurfType} (hp : p.isEquivalent p' = true) (hne : p ≠ p') :
      Confused (.reference p) (.nullableReference p')
  | nullable_pointer {p p' : TurfType} (hp : p.isEquivalent p' = true) (hne : p ≠ p') :
      Confused (.nullableReference p) (.pointer p')
  | null {F : TurfType} (hF : F.Nullable) : Confused F .null

/-- What widens when parameters flow the way results do. -/
inductive Widens : TurfType → TurfType → Prop
  | refl (T : TurfType) : Widens T T
  | usable {F T : TurfType} (h : Usable F T) (hF : ∀ r ps, F ≠ .func r ps) : Widens F T
  | confused {F T : TurfType} (h : Confused F T) : Widens F T
  | func {r r' : TurfType} {ps ps' : List TurfType} (hlen : ps.length = ps'.length)
      (harg : ∀ (i : ℕ) (p p' : TurfType), ps[i]? = some p → ps'[i]? = some p' → Widens p p')
      (hres : Widens r r') : Widens (.func r ps) (.func r' ps')

/-- The pairs `typesCompatible` is wrong about: types taken for one another, and function types
that widen position by position, where some parameter of the second type is not usable as the
first's (`parameter`) or the results are misjudged in turn (`result`). -/
inductive Misjudged : TurfType → TurfType → Prop
  | confused {F T : TurfType} (h : Confused F T) : Misjudged F T
  | parameter {r r' : TurfType} {ps ps' : List TurfType} (hwiden : Widens (.func r ps) (.func r' ps'))
      (hlen : ps.length = ps'.length) (i : ℕ) (p p' : TurfType) (hp : ps[i]? = some p)
      (hp' : ps'[i]? = some p') (hbad : ¬ (Usable p' p ∧ p'.getLLVMType = p.getLLVMType)) :
      Misjudged (.func r ps) (.func r' ps')
  | result {r r' : TurfType} {ps ps' : List TurfType} (hlen : ps.length = ps'.length)
      (hwiden : ∀ (i : ℕ) (p p' : TurfType), ps[i]? = some p → ps'[i]? = some p' → Widens p p')
      (hres : Misjudged r r') : Misjudged (.func r ps) (.func r' ps')

/-! ### A usable pair that prints alike is one type -/

theorem not_plain_param {e : TurfType} {name : String} : ¬ (array e (.param name)).Plain :=
  fun h => h.2

/-- A character put in front of a text and another one put behind it give different texts. -/
theorem cons_ne_append_singleton {c d : Char} (hcd : c ≠ d) (l : List Char) : c :: l ≠ l ++ [d] := by
  intro h
  have hcount := congrArg (List.count c) h
  rw [List.count_cons_self, List.count_append, List.count_singleton, if_neg (by simpa using hcd.symm)]
    at hcount
  omega

theorem getName_reference_ne_pointer (p : TurfType) :
    (reference p).getName ≠ (pointer p).getName := by
  intro h
  rw [← String.toList_inj, getName_pointer] at h
  obtain ⟨l, r, hname, ⟨rfl, rfl⟩ | ⟨rfl, rfl⟩⟩ := exists_getName_reference p
  · rw [hname, List.nil_append, List.append_nil] at h
    exact cons_ne_append_singleton (by decide) _ h
  · rw [hname] at h
    have hlen := congrArg List.length h
    simp at hlen
    omega

theorem getName_reference_ne_nullable (p : TurfType) :
    (reference p).getName ≠ (nullableReference p).getName := by
  intro h
  have hlen := congrArg (List.length ∘ String.toList) h
  by_cases hp : p.isArray = true <;> simp [getName, printFrom, withDimsParen, hp] at hlen

theorem getName_nullable_ne_pointer (p : TurfType) :
    (nullableReference p).getName ≠ (pointer p).getName := by
  intro h
  have hlen := congrArg (List.length ∘ String.toList) h
  by_cases hp : p.isArray = true
  · simp [getName, printFrom, withDims, withDimsParen, hp] at hlen
    omega
  · simp [getName, printFrom, withDims, withDimsParen, hp] at hlen

theorem print_fixed_ne_unsized (n : ℕ) : (ArraySize.fixed n).print ≠ ArraySize.unsized.print := by
  intro h
  have hlen := congrArg (List.length ∘ String.toList) h
  have hpos : 0 < (Nat.toDigits 10 n).length := Nat.length_toDigits_pos
  simp [ArraySize.print] at hlen

theorem Untyped.eq_of_getName {F T : TurfType} (hF : F.Untyped) (hT : T.Plain)
    (hname : F.getName = T.getName) : F = T := by
  cases hF with
  | opaquePointer => exact (eq_opaquePointer_of_getName hT hname.symm).symm
  | void => exact (eq_pointer_void_of_getName hT hname.symm).symm

theorem Usable.eq_of_getName {F T : TurfType} (h : Usable F T) (hF : F.Plain) (hT : T.Plain)
    (hname : F.getName = T.getName) : F = T := by
  induction h with
  | refl => rfl
  | int_double | int32_int | int32_double => exact absurd hname (by decide)
  | null hT' =>
    have hnull := primitive_of_getName hT (by rw [← hname]; decide)
    cases hT' with
    | opaquePointer => exact absurd hname (by decide)
    | pointer p => simp at hnull
    | nullableReference p => simp at hnull
  | fromUntyped hF' => exact hF'.eq_of_getName hT hname
  | toUntyped _ hT' => exact (hT'.eq_of_getName hF hname.symm).symm
  | reference_pointer p => exact (getName_reference_ne_pointer p hname).elim
  | reference_nullable p => exact (getName_reference_ne_nullable p hname).elim
  | nullable_pointer p => exact (getName_nullable_ne_pointer p hname).elim
  | array e size =>
    have hprint := print_eq_of_getName hname
    cases size with
    | unsized => rfl
    | fixed n => exact (print_fixed_ne_unsized n hprint).elim
    | param name => exact (not_plain_param hF).elim
  | @func r r' ps ps' hlen _ _ _ iharg ihres =>
    obtain ⟨hps, hr⟩ := getName_func_inj hF hT hlen hname
    rw [ihres hF.1 hT.1 hr]
    congr 1
    refine List.ext_getElem? fun i => ?_
    have hi : (ps.map getName)[i]? = (ps'.map getName)[i]? := by rw [hps]
    rw [List.getElem?_map, List.getElem?_map] at hi
    cases hp : ps[i]? with
    | none => rw [hp] at hi; simpa using hi
    | some p =>
      cases hp' : ps'[i]? with
      | none => rw [hp, hp'] at hi; simp at hi
      | some p' =>
        rw [hp, hp', Option.map_some, Option.map_some, Option.some.injEq] at hi
        rw [iharg i p p' hp hp' (AllPlain.get hT.2 hp') (AllPlain.get hF.2 hp) hi.symm]

/-! ### What the code computes on plain types -/

section Plain

variable {F T : TurfType}

theorem Plain.not_openParam (h : F.Plain) : F.containsOpenParam = false := by
  cases F with
  | genericParam => exact h.elim
  | _ => rfl

theorem Plain.pointersToOpen (hF : F.Plain) (hT : T.Plain) : pointersToOpen F T = false := by
  unfold TurfType.pointersToOpen
  have hpointee : ∀ {t p : TurfType}, t.Plain → t.pointee? = some p → p.containsOpenParam = false := by
    intro t p ht hp
    cases t with
    | pointer | reference | nullableReference =>
      obtain rfl := Option.some.inj hp
      exact Plain.not_openParam ht
    | _ => cases hp
  cases hp : F.pointee? with
  | none => rfl
  | some p =>
    cases hq : T.pointee? with
    | none => rfl
    | some q => simp [hpointee hF hp, hpointee hT hq]

theorem Plain.genericsCompatible (hF : F.Plain) (hT : T.Plain) : genericsCompatible F T = false := by
  cases F with
  | generic => exact hF.elim
  | _ =>
    cases T with
    | generic => exact hT.elim
    | _ => rfl

/-- Arrays: only the sizes and the element types are asked for. -/
theorem Plain.typesCompatible_array {e e' : TurfType} {n m : ArraySize} (hF : (array e n).Plain)
    (hT : (array e' m).Plain) :
    typesCompatible (array e n) (array e' m) = (sizeOk n m && e.isEquivalent e') := by
  unfold typesCompatible
  rw [hF.not_openParam, hT.not_openParam]
  simp [isArray, arraysCompatible, Plain.not_openParam hF.1, Plain.not_openParam hT.1]

/-- An array and another type are never compatible. -/
theorem Plain.typesCompatible_mixed (hF : F.Plain) (hT : T.Plain) (h : F.isArray ≠ T.isArray) :
    typesCompatible F T = false := by
  have hno : arraysCompatible F T = false := by
    cases F with
    | array e n =>
      cases T with
      | array e' m => exact (h rfl).elim
      | _ => rfl
    | _ => rfl
  have hor : (F.isArray || T.isArray) = true := by
    cases hFa : F.isArray <;> cases hTa : T.isArray <;> simp_all
  unfold typesCompatible
  rw [hF.not_openParam, hT.not_openParam, Bool.or_self, if_neg (by decide), if_pos hor, hno]

/-- Neither arrays nor both function types: the rules after those. -/
theorem Plain.typesCompatible_eq (hF : F.Plain) (hT : T.Plain) (hFa : F.isArray = false)
    (hTa : T.isArray = false) (h : ∀ r ps r' ps', F = func r ps → T ≠ func r' ps') :
    typesCompatible F T = scalarCompatible F T := by
  rw [typesCompatible, hF.not_openParam, hT.not_openParam, hF.pointersToOpen hT,
    hF.genericsCompatible hT, hFa, hTa]
  · simp
  · exact fun r ps r' ps' hr hr' => h r ps r' ps' hr hr'

theorem paramsCompatible_iff {ps ps' : List TurfType} (hlen : ps.length = ps'.length) :
    paramsCompatible ps ps' = true ↔
      ∀ (i : ℕ) (p p' : TurfType), ps[i]? = some p → ps'[i]? = some p' →
        typesCompatible p p' = true := by
  induction ps generalizing ps' with
  | nil => simp [paramsCompatible]
  | cons q qs ih =>
    cases ps' with
    | nil => simp at hlen
    | cons q' qs' =>
      rw [paramsCompatible, Bool.and_eq_true, ih (by simpa using hlen)]
      constructor
      · rintro ⟨hq, hqs⟩ i p p' hp hp'
        cases i with
        | zero =>
          obtain rfl : q = p := by simpa using hp
          obtain rfl : q' = p' := by simpa using hp'
          exact hq
        | succ i => exact hqs i p p' (by simpa using hp) (by simpa using hp')
      · intro h
        exact ⟨h 0 q q' rfl rfl, fun i p p' hp hp' => h (i + 1) p p' (by simpa) (by simpa)⟩

theorem Plain.typesCompatible_func {r r' : TurfType} {ps ps' : List TurfType}
    (hF : (func r ps).Plain) (hT : (func r' ps').Plain) :
    typesCompatible (func r ps) (func r' ps') = true ↔
      (ps.length = ps'.length ∧ (∀ (i : ℕ) (p p' : TurfType), ps[i]? = some p →
        ps'[i]? = some p' → typesCompatible p p' = true) ∧ typesCompatible r r' = true) ∨
      (func r ps).getName = (func r' ps').getName := by
  have hscalar : scalarCompatible (func r ps) (func r' ps') = true ↔
      (func r ps).getName = (func r' ps').getName := by
    simp [scalarCompatible, isNull, opaqueCompatible, referenceCompatible, isPointer, isNumeric]
  rw [typesCompatible, hF.not_openParam, hT.not_openParam, hF.pointersToOpen hT,
    hF.genericsCompatible hT]
  simp only [isArray, Bool.or_self, Bool.false_eq_true, if_false, Bool.if_true_left,
    Bool.or_eq_true, Bool.and_eq_true, decide_eq_true_eq]
  rw [hscalar]
  refine or_congr_left ?_
  constructor
  · rintro ⟨⟨hlen, hps⟩, hr⟩
    exact ⟨hlen, (paramsCompatible_iff hlen).1 hps, hr⟩
  · rintro ⟨hlen, hps, hr⟩
    exact ⟨⟨hlen, (paramsCompatible_iff hlen).2 hps⟩, hr⟩

end Plain

/-! ### The misjudged pairs are accepted -/

theorem isPointerLikeStrict_of_nullable {T : TurfType} (h : T.Nullable) :
    T.isPointerLikeStrict = true := by
  cases h <;> simp [isPointerLikeStrict, isPointer, isReference]

theorem Nullable.isArray {T : TurfType} (h : T.Nullable) : T.isArray = false := by
  cases h <;> rfl

theorem Nullable.ne_func {T : TurfType} (h : T.Nullable) (r : TurfType) (ps : List TurfType) :
    T ≠ func r ps := by
  cases h <;> simp

theorem scalarCompatible_of_getName {F T : TurfType} (h : F.getName = T.getName) :
    scalarCompatible F T = true :=
  if_pos h

theorem scalarCompatible_null {F : TurfType} (h : F.Nullable) : scalarCompatible F .null = true := by
  cases h <;> simp [scalarCompatible, isNull, isPointerLikeStrict, isPointer, isReference]

/-- The rules on references, reached with equivalent pointees. -/
theorem scalarCompatible_reference {p p' : TurfType} (h : p.isEquivalent p' = true) :
    scalarCompatible (.reference p) (.pointer p') = true ∧
      scalarCompatible (.reference p) (.nullableReference p') = true ∧
      scalarCompatible (.nullableReference p) (.pointer p') = true := by
  have hmatch : referencePointeeGenericMatch p p' = true := by
    unfold referencePointeeGenericMatch
    simp [h]
  refine ⟨?_, ?_, ?_⟩
  all_goals simp [scalarCompatible, isNull, referenceCompatible, pointee?, isReference,
    isNullableReference, hmatch]

theorem Confused.compatible {F T : TurfType} (h : Confused F T) (hF : F.Plain) (hT : T.Plain) :
    typesCompatible F T = true := by
  cases h with
  | sameName hFa hTa hname hne =>
    by_cases hfunc : ∃ r ps r' ps', F = func r ps ∧ T = func r' ps'
    · obtain ⟨r, ps, r', ps', rfl, rfl⟩ := hfunc
      exact (hF.typesCompatible_func hT).2 (.inr hname)
    · rw [hF.typesCompatible_eq hT hFa hTa fun r ps r' ps' hr hr' => hfunc ⟨r, ps, r', ps', hr, hr'⟩]
      exact scalarCompatible_of_getName hname
  | element hsize helem hne => rw [hF.typesCompatible_array hT, hsize, helem]; rfl
  | reference_pointer hp hne =>
    rw [hF.typesCompatible_eq hT rfl rfl (by simp)]
    exact (scalarCompatible_reference hp).1
  | reference_nullable hp hne =>
    rw [hF.typesCompatible_eq hT rfl rfl (by simp)]
    exact (scalarCompatible_reference hp).2.1
  | nullable_pointer hp hne =>
    rw [hF.typesCompatible_eq hT rfl rfl (by simp)]
    exact (scalarCompatible_reference hp).2.2
  | null hF' =>
    rw [hF.typesCompatible_eq hT hF'.isArray rfl (by simp)]
    exact scalarCompatible_null hF'

theorem isOpaquePtr_of_untyped {T : TurfType} (h : T.Untyped) : T.isOpaquePtr = true := by
  cases h <;> decide

/-- Away from function types, what is usable is accepted. -/
theorem Usable.compatible {F T : TurfType} (h : Usable F T) (hF : F.Plain) (hT : T.Plain)
    (hfunc : ∀ r ps, F ≠ .func r ps) (hne : F ≠ T) : typesCompatible F T = true := by
  have hscalar : F.isArray = false → T.isArray = false → scalarCompatible F T = true →
      typesCompatible F T = true := by
    intro hFa hTa hs
    rw [hF.typesCompatible_eq hT hFa hTa fun r ps _ _ hr => (hfunc r ps hr).elim, hs]
  have hopq : F.isArray = false → T.isArray = false → F ≠ .null → T ≠ .null →
      opaqueCompatible F T = true → typesCompatible F T = true := by
    intro hFa hTa hF' hT' ho
    refine hscalar hFa hTa ?_
    have hFn : F.isNull = false := by cases F <;> first | rfl | exact (hF' rfl).elim
    have hTn : T.isNull = false := by cases T <;> first | rfl | exact (hT' rfl).elim
    unfold scalarCompatible
    simp [hFn, hTn, ho]
  cases h with
  | refl => exact (hne rfl).elim
  | int_double | int32_int | int32_double => rfl
  | null hT' =>
    refine hscalar rfl hT'.isArray ?_
    cases hT' <;> simp [scalarCompatible, isNull, isPointerLikeStrict, isPointer, isReference]
  | fromUntyped hF' hT' =>
    refine hopq ?_ hT'.isArray ?_ ?_ ?_
    · cases hF' <;> rfl
    · cases hF' <;> simp
    · cases hT' <;> simp
    · rw [opaqueCompatible, isOpaquePtr_of_untyped hF']
      cases hT' <;> simp [isPointer, isReference]
  | toUntyped hF' hT' =>
    refine hopq ?_ ?_ ?_ ?_ ?_
    · cases F <;> first | rfl | cases hF'
    · cases hT' <;> rfl
    · rintro rfl; cases hF'
    · cases hT' <;> simp
    · rw [opaqueCompatible, isOpaquePtr_of_untyped hT', hF']
      simp
  | reference_pointer p =>
    exact hscalar rfl rfl (scalarCompatible_reference (isEquivalent_refl p)).1
  | reference_nullable p =>
    exact hscalar rfl rfl (scalarCompatible_reference (isEquivalent_refl p)).2.1
  | nullable_pointer p =>
    exact hscalar rfl rfl (scalarCompatible_reference (isEquivalent_refl p)).2.2
  | array e size =>
    rw [hF.typesCompatible_array hT, isEquivalent_refl e]
    cases size <;> rfl
  | func => exact (hfunc _ _ rfl).elim

theorem typesCompatible_refl {T : TurfType} (hT : T.Plain) : typesCompatible T T = true := by
  cases hTa : T.isArray with
  | true =>
    cases T with
    | array e size =>
      rw [hT.typesCompatible_array hT, isEquivalent_refl e, Bool.and_true]
      cases size with
      | fixed n => exact decide_eq_true rfl
      | _ => rfl
    | _ => cases hTa
  | false =>
    by_cases hfunc : ∃ r ps, T = func r ps
    · obtain ⟨r, ps, rfl⟩ := hfunc
      exact (hT.typesCompatible_func hT).2 (.inr rfl)
    · rw [hT.typesCompatible_eq hT hTa hTa fun r ps _ _ hr => (hfunc ⟨r, ps, hr⟩).elim]
      exact scalarCompatible_of_getName rfl

/-- What widens is accepted. -/
theorem Widens.compatible {F T : TurfType} (h : Widens F T) (hF : F.Plain) (hT : T.Plain) :
    typesCompatible F T = true := by
  induction h with
  | refl T => exact typesCompatible_refl hF
  | @usable F T h hfunc =>
    by_cases hne : F = T
    · rw [hne]
      exact typesCompatible_refl hT
    · exact h.compatible hF hT hfunc hne
  | confused h => exact h.compatible hF hT
  | func hlen _ _ iharg ihres =>
    refine (hF.typesCompatible_func hT).2 (.inl ⟨hlen, fun i p p' hp hp' => ?_, ihres hF.1 hT.1⟩)
    exact iharg i p p' hp hp' (hF.2.get hp) (hT.2.get hp')

/-! ### What is accepted widens -/

theorem untyped_of_isOpaquePtr {T : TurfType} (hT : T.Plain) (h : T.isOpaquePtr = true) :
    T.Untyped := by
  unfold isOpaquePtr at h
  rw [Bool.or_eq_true, decide_eq_true_eq, decide_eq_true_eq] at h
  rcases h with h | h
  · rw [eq_opaquePointer_of_getName hT h]
    exact .opaquePointer
  · rw [eq_pointer_void_of_getName hT h]
    exact .void

theorem nullable_of_isPointer {T : TurfType} (h : T.isPointer = true)
    (href : T.isReference = false) : T.Nullable := by
  cases T with
  | opaquePointer => exact .opaquePointer
  | pointer p => exact .pointer p
  | nullableReference p => exact .nullableReference p
  | reference => cases href
  | _ => cases h

theorem nullable_of_isPointerLikeStrict {T : TurfType} (hT : T.Plain)
    (h : T.isPointerLikeStrict = true) : T.Nullable := by
  unfold isPointerLikeStrict at h
  rw [Bool.or_eq_true, Bool.and_eq_true, Bool.not_eq_true'] at h
  rcases h with ⟨h, href⟩ | h
  · exact nullable_of_isPointer h href
  · cases untyped_of_isOpaquePtr hT h with
    | opaquePointer => exact .opaquePointer
    | void => exact .pointer _

/-- The pointees of two references the rules on references accept are equivalent. -/
theorem isEquivalent_of_pointeeMatch {p q : TurfType} (hp : p.Plain) (hq : q.Plain)
    (h : referencePointeeGenericMatch p q = true) : p.isEquivalent q = true := by
  unfold referencePointeeGenericMatch at h
  rw [hp.not_openParam, hq.not_openParam] at h
  cases p with
  | generic => exact hp.elim
  | _ => simpa using h

/-- Two arrays are compatible with equivalent elements and a size that fits. -/
theorem widens_array {e e' : TurfType} {n m : ArraySize} (hF : (array e n).Plain)
    (hT : (array e' m).Plain) (h : typesCompatible (array e n) (array e' m) = true) :
    Widens (array e n) (array e' m) := by
  rw [hF.typesCompatible_array hT, Bool.and_eq_true] at h
  obtain ⟨hsize, helem⟩ := h
  by_cases he : e = e'
  · subst he
    cases m with
    | unsized => exact .usable (.array e n) (by simp)
    | fixed m =>
      cases n with
      | fixed n =>
        obtain rfl : n = m := by simpa [sizeOk] using hsize
        exact .refl _
      | unsized => cases hsize
      | param name => exact (not_plain_param hF).elim
    | param name => exact (not_plain_param hT).elim
  · exact .confused (.element hsize helem he)

theorem widens_reference {F T : TurfType} (hF : F.Plain) (hT : T.Plain)
    (h : referenceCompatible F T = true) : Widens F T := by
  unfold referenceCompatible at h
  cases F with
  | reference p =>
    have hp : p.Plain := hF
    cases T with
    | pointer q =>
      have hmatch := isEquivalent_of_pointeeMatch hp (q := q) hT
        (by simpa [pointee?, isReference] using h)
      by_cases hpq : p = q
      · rw [hpq]
        exact .usable (.reference_pointer q) (by simp)
      · exact .confused (.reference_pointer hmatch hpq)
    | nullableReference q =>
      have hmatch := isEquivalent_of_pointeeMatch hp (q := q) hT
        (by simpa [pointee?, isReference] using h)
      by_cases hpq : p = q
      · rw [hpq]
        exact .usable (.reference_nullable q) (by simp)
      · exact .confused (.reference_nullable hmatch hpq)
    | reference q => simp [pointee?, isReference] at h
    | _ => simp [pointee?] at h
  | nullableReference p =>
    have hp : p.Plain := hF
    cases T with
    | pointer q =>
      have hmatch := isEquivalent_of_pointeeMatch hp (q := q) hT
        (by simpa [pointee?, isReference, isNullableReference] using h)
      by_cases hpq : p = q
      · rw [hpq]
        exact .usable (.nullable_pointer q) (by simp)
      · exact .confused (.nullable_pointer hmatch hpq)
    | reference q => simp [pointee?, isReference] at h
    | nullableReference q => simp [pointee?, isReference, isNullableReference] at h
    | _ => simp [pointee?] at h
  | _ => simp at h

theorem widens_untyped {F T : TurfType} (hF : F.Plain) (hT : T.Plain)
    (h : opaqueCompatible F T = true) : Widens F T := by
  unfold opaqueCompatible at h
  rw [Bool.or_eq_true, Bool.and_eq_true, Bool.and_eq_true, Bool.and_eq_true,
    Bool.not_eq_true'] at h
  rcases h with ⟨⟨hopq, hpointer⟩, href⟩ | ⟨hopq, hpointer⟩
  · have huntyped := untyped_of_isOpaquePtr hF hopq
    refine .usable (.fromUntyped huntyped (nullable_of_isPointer hpointer href)) ?_
    cases huntyped <;> simp
  · refine .usable (.toUntyped hpointer (untyped_of_isOpaquePtr hT hopq)) ?_
    rintro r ps rfl
    cases hpointer

theorem widens_numeric {F T : TurfType} (h : numericCompatible F T = true) : Widens F T := by
  unfold numericCompatible at h
  cases F with
  | int =>
    cases T with
    | double => exact .usable .int_double (by simp)
    | _ => cases h
  | int32 =>
    cases T with
    | int => exact .usable .int32_int (by simp)
    | double => exact .usable .int32_double (by simp)
    | _ => cases h
  | _ => cases h

/-- The rules after those for arrays and function types. -/
theorem widens_scalar {F T : TurfType} (hF : F.Plain) (hT : T.Plain) (hFa : F.isArray = false)
    (hTa : T.isArray = false) (h : scalarCompatible F T = true) : Widens F T := by
  by_cases hFT : F = T
  · rw [hFT]
    exact .refl T
  by_cases hname : F.getName = T.getName
  · exact .confused (.sameName hFa hTa hname hFT)
  unfold scalarCompatible at h
  rw [if_neg hname] at h
  by_cases hFnull : F.isNull = true
  · cases F with
    | null => exact .usable (.null (nullable_of_isPointerLikeStrict hT h)) (by simp)
    | _ => cases hFnull
  rw [if_neg hFnull] at h
  by_cases hTnull : T.isNull = true
  · cases T with
    | null => exact .confused (.null (nullable_of_isPointerLikeStrict hF h))
    | _ => cases hTnull
  rw [if_neg hTnull] at h
  by_cases hopq : opaqueCompatible F T = true
  · exact widens_untyped hF hT hopq
  rw [if_neg hopq] at h
  by_cases href : referenceCompatible F T = true
  · exact widens_reference hF hT href
  rw [if_neg href] at h
  refine widens_numeric ?_
  split_ifs at h
  rw [Bool.and_eq_true] at h
  exact h.2

/-- What the code accepts widens. The induction is on the size of the first type: parameters and
results are compared in its direction. -/
theorem widens_of_compatible {F T : TurfType} (hF : F.Plain) (hT : T.Plain)
    (h : typesCompatible F T = true) : Widens F T := by
  induction hn : sizeOf F using Nat.strong_induction_on generalizing F T with
  | h n ih =>
    subst hn
    by_cases hfunc : ∃ r ps r' ps', F = .func r ps ∧ T = .func r' ps'
    · obtain ⟨r, ps, r', ps', rfl, rfl⟩ := hfunc
      rcases (hF.typesCompatible_func hT).1 h with ⟨hlen, hps, hr⟩ | hname
      · have hsize : sizeOf (TurfType.func r ps) = 1 + sizeOf r + sizeOf ps := by simp
        refine .func hlen (fun i p p' hp hp' => ?_) ?_
        · have hlt := List.sizeOf_lt_of_mem (List.mem_of_getElem? hp)
          exact ih (sizeOf p) (by omega) (hF.2.get hp) (hT.2.get hp') (hps i p p' hp hp') rfl
        · exact ih (sizeOf r) (by omega) hF.1 hT.1 hr rfl
      · by_cases hFT : func r ps = func r' ps'
        · rw [hFT]
          exact .refl _
        · exact .confused (.sameName rfl rfl hname hFT)
    by_cases harr : F.isArray = T.isArray
    · cases hTa : T.isArray with
      | false =>
        rw [hTa] at harr
        rw [hF.typesCompatible_eq hT harr hTa fun r ps r' ps' hr hr' =>
          hfunc ⟨r, ps, r', ps', hr, hr'⟩] at h
        exact widens_scalar hF hT harr hTa h
      | true =>
        rw [hTa] at harr
        cases F with
        | array e n =>
          cases T with
          | array e' m => exact widens_array hF hT h
          | _ => cases hTa
        | _ => cases harr
    · rw [hF.typesCompatible_mixed hT harr] at h
      cases h

/-! ### The pairs the code is wrong about -/

theorem Widens.usable_or_misjudged {F T : TurfType} (h : Widens F T) :
    Usable F T ∨ Misjudged F T := by
  induction h with
  | refl T => exact .inl (.refl T)
  | usable h => exact .inl h
  | confused h => exact .inr (.confused h)
  | @func r r' ps ps' hlen harg hres _ ihres =>
    by_cases hargs : ∀ (i : ℕ) (p p' : TurfType), ps[i]? = some p → ps'[i]? = some p' →
        Usable p' p ∧ p'.getLLVMType = p.getLLVMType
    · rcases ihres with hres' | hres'
      · exact .inl (.func hlen (fun i p p' hp hp' => (hargs i p p' hp hp').1)
          (fun i p p' hp hp' => (hargs i p p' hp hp').2) hres')
      · exact .inr (.result hlen harg hres')
    · push Not at hargs
      obtain ⟨i, p, p', hp, hp', hbad⟩ := hargs
      exact .inr (.parameter (.func hlen harg hres) hlen i p p' hp hp' fun h => hbad h.1 h.2)

theorem Misjudged.widens {F T : TurfType} (h : Misjudged F T) : Widens F T := by
  induction h with
  | confused h => exact .confused h
  | parameter hwiden => exact hwiden
  | result hlen hwiden _ ih => exact .func hlen hwiden ih

theorem eq_void_of_isEquivalent {p : TurfType} (hp : p.Plain) (h : p.isEquivalent .void = true) :
    p = .void := by
  cases p with
  | array | func => simp [isEquivalent] at h
  | sizeValue => exact hp.elim
  | void => rfl
  | _ =>
    simp only [isEquivalent, decide_eq_true_eq] at h
    exact eq_void_of_getName hp (h.trans rfl)

theorem Confused.not_usable {F T : TurfType} (h : Confused F T) (hF : F.Plain) (hT : T.Plain) :
    ¬ Usable F T := by
  intro hu
  cases h with
  | sameName _ _ hname hne => exact hne (hu.eq_of_getName hF hT hname)
  | element _ _ hne =>
    cases hu with
    | refl => exact hne rfl
    | array => exact hne rfl
    | toUntyped hF' => cases hF'
    | fromUntyped hF' => cases hF'
  | reference_pointer hp hne =>
    cases hu with
    | reference_pointer => exact hne rfl
    | fromUntyped hF' => cases hF'
    | toUntyped _ hT' =>
      cases hT' with
      | void => exact hne (eq_void_of_isEquivalent hF hp)
  | reference_nullable hp hne =>
    cases hu with
    | reference_nullable => exact hne rfl
    | fromUntyped hF' => cases hF'
    | toUntyped _ hT' => cases hT'
  | nullable_pointer hp hne =>
    cases hu with
    | nullable_pointer => exact hne rfl
    | fromUntyped hF' => cases hF'
    | toUntyped _ hT' =>
      cases hT' with
      | void => exact hne (eq_void_of_isEquivalent hF hp)
  | null hF' =>
    cases hu with
    | refl => cases hF'
    | null => cases hF'
    | fromUntyped _ hT' => cases hT'
    | toUntyped _ hT' => cases hT'

theorem Misjudged.not_usable {F T : TurfType} (h : Misjudged F T) (hF : F.Plain) (hT : T.Plain) :
    ¬ Usable F T := by
  induction h with
  | confused h => exact h.not_usable hF hT
  | parameter _ _ i p p' hp hp' hbad =>
    intro hu
    refine hbad ?_
    cases hu with
    | refl =>
      obtain rfl : p = p' := Option.some.inj (hp.symm.trans hp')
      exact ⟨.refl p, rfl⟩
    | toUntyped hF' => cases hF'
    | fromUntyped hF' => cases hF'
    | func _ harg hrepr _ => exact ⟨harg i p p' hp hp', hrepr i p p' hp hp'⟩
  | result _ _ _ ih =>
    intro hu
    refine ih hF.1 hT.1 ?_
    cases hu with
    | refl => exact .refl _
    | toUntyped hF' => cases hF'
    | fromUntyped hF' => cases hF'
    | func _ _ _ hres => exact hres

/-- Implicit assignability is sound on exactly the pairs that are not misjudged. -/
theorem typesCompatible_sound_iff {F T : TurfType} (hF : F.Plain) (hT : T.Plain) :
    (typesCompatible F T = true → Usable F T) ↔ ¬ Misjudged F T := by
  constructor
  · intro hsound hm
    exact hm.not_usable hF hT (hsound (hm.widens.compatible hF hT))
  · intro hm h
    exact (widens_of_compatible hF hT h).usable_or_misjudged.resolve_right hm

/-- A pair that widens in the result only is judged rightly. -/
theorem typesCompatible_sound_iff_widerResult :
    (typesCompatible (.func .int [.reference .int]) (.func .double [.reference .int]) = true →
      Usable (.func .int [.reference .int]) (.func .double [.reference .int])) ↔
      ¬ Misjudged (.func .int [.reference .int]) (.func .double [.reference .int]) :=
  typesCompatible_sound_iff ⟨trivial, trivial, trivial⟩ ⟨trivial, trivial, trivial⟩

/-- A function on `&int` is accepted as a function on `&?int`: `null` reaches a `&int`. -/
theorem not_typesCompatible_sound :
    ¬ ∀ F T : TurfType, F.Plain → T.Plain → typesCompatible F T = true → Usable F T := by
  intro h
  have hu := h (.func .void [.reference .int]) (.func .void [.nullableReference .int])
    ⟨trivial, trivial, trivial⟩ ⟨trivial, trivial, trivial⟩ (by decide)
  cases hu with
  | toUntyped hF => cases hF
  | fromUntyped hF => cases hF
  | func _ harg =>
    have harg := harg 0 _ _ rfl rfl
    cases harg with
    | toUntyped _ hT => cases hT
    | fromUntyped hF => cases hF

end TurfType

end TurfLang
