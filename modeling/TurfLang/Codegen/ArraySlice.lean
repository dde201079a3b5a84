import TurfLang.Codegen.CheckedInt
import TurfLang.Lib.Loop

/-!
# `src/codegen/CodegenArray.cpp`, `src/sema/TypeCheckerSlice.cpp`: `arr[start..end]`

A slice is an address and a length, and slicing it moves the one and shortens the other: no element
is copied. What the emitted code does with its 64-bit integers is read against slices of lists.
-/

namespace TurfLang

namespace Codegen

namespace ArraySlice

/-! ### The emitted code -/

/-- `{ data, length }`. -/
structure Slice where
  data : ℤ
  length : BitVec 64
  deriving DecidableEq

/-- The bounds of a slice, each as it is evaluated, if it is written. -/
structure SliceBounds where
  start : Option (BitVec 64)
  stop : Option (BitVec 64)

/-- The select that makes an index of one that counts from the end. -/
def emitWrap (v length : BitVec 64) : BitVec 64 := if v.slt 0 then v + length else v

/-- `Bound`. -/
def emitBound (bound : Option (BitVec 64)) (default length : BitVec 64) : BitVec 64 :=
  match bound with
  | none => default
  | some v => emitWrap v length

/-- `CreateInBoundsGEP` of an element type of `elemSize` bytes. -/
def inBoundsGEP (elemSize : ℕ) (data : ℤ) (index : BitVec 64) : ℤ := data + elemSize * index.toInt

/-- `ArrayDisplayName`: the base's name, if it is a variable. -/
def arrayDisplayName (name : Option String) : String := name.getD "array"

/-- `SliceExprAST::codegen`, on what its base and its bounds evaluate to. -/
def emitSlice (elemSize : ℕ) (name : Option String) (base : Slice) (bounds : SliceBounds) :
    Checked Slice :=
  let start := emitBound bounds.start 0 base.length
  let stop := emitBound bounds.stop base.length base.length
  if (start.slt 0 || stop.slt start) || base.length.slt stop then
    .error ("Slice range out of bounds for '" ++ arrayDisplayName name ++ "'")
  else .ok { data := inBoundsGEP elemSize base.data start, length := stop - start }

/-- A slice of a slice, and so on; only the innermost base may be a variable. -/
def emitChain (elemSize : ℕ) : Option String → Slice → List SliceBounds → Checked Slice
  | _, s, [] => .ok s
  | name, s, bounds :: chain => do
    let s ← emitSlice elemSize name s bounds
    emitChain elemSize none s chain

/-- `EmitRuntimeBoundsCheck`. -/
def emitRuntimeBoundsCheck (index size : BitVec 64) (name : Option String) : Checked (BitVec 64) :=
  let index := emitWrap index size
  if index.slt 0 || size.sle index then
    .error ("Array index out of bounds for '" ++ arrayDisplayName name ++ "'")
  else .ok index

/-- The address of an element of a `T[]`. -/
def emitElementAddress (elemSize : ℕ) (name : Option String) (s : Slice) (index : BitVec 64) :
    Checked ℤ := do
  let index ← emitRuntimeBoundsCheck index s.length name
  return inBoundsGEP elemSize s.data index

/-- `FoldConstantArrayIndex`, of a `T[N]`. -/
def foldConstantArrayIndex (index : ℤ) (arraySize : ℕ) : Option ℤ :=
  if -(arraySize : ℤ) ≤ index ∧ index < arraySize then
    some (if index < 0 then index + arraySize else index)
  else none

/-! ### The checker -/

/-- A bound as the checker sees it: not written, folded to a number, or neither. -/
inductive CheckedBound
  | omitted
  | folded (value : ℤ)
  | unknown
  deriving DecidableEq

/-- `constantSliceBound`. -/
def constantSliceBound : CheckedBound → Option ℤ
  | .folded value => if FitsSigned 64 value then some value else none
  | _ => none

/-- The value of a bound of a `T[N]`, where it is known. -/
def knownBound (default size : ℤ) : CheckedBound → Option ℤ
  | .omitted => some default
  | bound => (constantSliceBound bound).map fun v => if v < 0 then v + size else v

/-- `Problem` of `visitSlice`, for a base of `size` elements, or of a `T[]` if that is negative. -/
def sliceProblem (size : ℤ) (start stop : CheckedBound) : Option String :=
  if 0 ≤ size then
    let start := knownBound 0 size start
    let stop := knownBound size size stop
    if start.any fun i => i < 0 ∨ size < i then
      some ("the start is outside 0.." ++ toString size)
    else if stop.any fun j => j < 0 ∨ size < j then
      some ("the end is outside 0.." ++ toString size)
    else if start.any fun i => stop.any fun j => j < i then some "the start comes after the end"
    else none
  else
    match constantSliceBound start, constantSliceBound stop with
    | some i, some j =>
      if (0 ≤ i ↔ 0 ≤ j) ∧ j < i then some "the start comes after the end" else none
    | _, _ => none

/-! ### Slices of lists -/

section Lists

variable {α : Type}

/-- A negative position counts from the end. -/
def fromEnd (n : ℕ) (v : ℤ) : ℤ := if v < 0 then v + n else v

/-- The positions that bounds name in a list of `n` elements. -/
def positions (n : ℕ) (start stop : Option ℤ) : ℤ × ℤ :=
  ((start.map (fromEnd n)).getD 0, (stop.map (fromEnd n)).getD n)

/-- `xs[start..stop]`, where the positions must be in order and within the list. -/
def listSlice (xs : List α) (start stop : Option ℤ) : Option (List α) :=
  let p := positions xs.length start stop
  if 0 ≤ p.1 ∧ p.1 ≤ p.2 ∧ p.2 ≤ xs.length then some ((xs.take p.2.toNat).drop p.1.toNat) else none

/-- `xs[k]`. -/
def listIndex (xs : List α) (k : ℤ) : Option α :=
  if 0 ≤ fromEnd xs.length k then xs[(fromEnd xs.length k).toNat]? else none

/-- A chain of slices. -/
def listChain : List α → List SliceBounds → Option (List α)
  | xs, [] => some xs
  | xs, bounds :: chain => do
    let xs ← listSlice xs (bounds.start.map BitVec.toInt) (bounds.stop.map BitVec.toInt)
    listChain xs chain

end Lists

/-! ### Integers of the code -/

section Integers

variable {n : ℕ} {v : BitVec 64}

theorem slt_zero_iff : v.slt 0 = true ↔ v.toInt < 0 := by simp [BitVec.slt_iff_toInt_lt]

theorem toInt_ofNat (hn : n < 2 ^ 31) : (BitVec.ofNat 64 n).toInt = n := by
  rw [BitVec.toInt_ofNat', Int.bmod_def]
  omega

/-- The sum does not leave 64 bits, since only a negative number has the length added to it. -/
theorem toInt_emitWrap (hn : n < 2 ^ 31) :
    (emitWrap v (BitVec.ofNat 64 n)).toInt = fromEnd n v.toInt := by
  unfold emitWrap fromEnd
  have hlo := BitVec.le_toInt v
  by_cases h : v.toInt < 0
  · rw [if_pos (slt_zero_iff.2 h), if_pos h, BitVec.toInt_add, toInt_ofNat hn, Int.bmod_def]
    omega
  · rw [if_neg (fun h' => h (slt_zero_iff.1 h')), if_neg h]

theorem toInt_emitBound (hn : n < 2 ^ 31) (bound : Option (BitVec 64)) (default : BitVec 64) :
    (emitBound bound default (BitVec.ofNat 64 n)).toInt =
      ((bound.map BitVec.toInt).map (fromEnd n)).getD default.toInt := by
  cases bound with
  | none => rfl
  | some v => exact toInt_emitWrap hn

end Integers

/-! ### Views of an array -/

/-- An array of a `T[N]` in memory; its size is an `int`. -/
structure StoredArray (α : Type) where
  elements : List α
  address : ℤ
  elemSize : ℕ
  memory : ℤ → α
  size_lt : elements.length < 2 ^ 31
  stored : ∀ i (h : i < elements.length), memory (address + elemSize * i) = elements[i]

namespace StoredArray

variable {α : Type} (a : StoredArray α)

/-- `CodegenSliceArgument` of the array. -/
def whole : Slice := { data := a.address, length := BitVec.ofNat 64 a.elements.length }

/-- The elements that a slice gives. -/
def read (s : Slice) : List α :=
  (List.range s.length.toNat).map fun i : ℕ => a.memory (s.data + a.elemSize * i)

/-- The slice is a view of `len` elements from `off` on. -/
structure Views (s : Slice) (off len : ℕ) : Prop where
  data : s.data = a.address + a.elemSize * off
  length : s.length = BitVec.ofNat 64 len
  le : off + len ≤ a.elements.length

variable {a} {s : Slice} {off len : ℕ}

theorem views_whole : a.Views a.whole 0 a.elements.length where
  data := by simp [whole]
  length := rfl
  le := by simp

theorem Views.len_lt (h : a.Views s off len) : len < 2 ^ 31 := by
  have := h.le
  have := a.size_lt
  omega

/-- A view reads its part of the elements. -/
theorem Views.read_eq (h : a.Views s off len) : a.read s = (a.elements.drop off).take len := by
  have hle := h.le
  have hlen : s.length.toNat = len := by
    have := h.len_lt
    rw [h.length, BitVec.toNat_ofNat, Nat.mod_eq_of_lt (by omega)]
  refine List.ext_getElem ?_ fun i h₁ h₂ => ?_
  · simp only [read, List.length_map, List.length_range, List.length_take, List.length_drop, hlen]
    omega
  · simp only [read, List.length_map, List.length_range, hlen] at h₁
    have haddr : s.data + a.elemSize * (i : ℤ) = a.address + a.elemSize * ((off + i : ℕ) : ℤ) := by
      rw [h.data]
      push_cast
      ring
    simp only [read, List.getElem_map, List.getElem_range, List.getElem_take, List.getElem_drop]
    rw [haddr, a.stored (off + i) (by omega)]

theorem Views.length_read (h : a.Views s off len) : (a.read s).length = len := by
  have hle := h.le
  rw [h.read_eq]
  simp only [List.length_take, List.length_drop]
  omega

/-- The bounds of a slice of a view are the positions that they name. -/
theorem Views.toInt_bounds (h : a.Views s off len) (bounds : SliceBounds) :
    ((emitBound bounds.start 0 s.length).toInt, (emitBound bounds.stop s.length s.length).toInt) =
      positions len (bounds.start.map BitVec.toInt) (bounds.stop.map BitVec.toInt) := by
  rw [h.length, toInt_emitBound h.len_lt, toInt_emitBound h.len_lt, toInt_ofNat h.len_lt]
  rfl

/-- Slicing a view panics, or it views the part that the positions name. -/
theorem Views.emitSlice (h : a.Views s off len) (name : Option String) (bounds : SliceBounds) :
    let p := positions len (bounds.start.map BitVec.toInt) (bounds.stop.map BitVec.toInt)
    (¬ (0 ≤ p.1 ∧ p.1 ≤ p.2 ∧ p.2 ≤ len) ∧
      ∃ text, ArraySlice.emitSlice a.elemSize name s bounds = .error text) ∨
    (0 ≤ p.1 ∧ p.1 ≤ p.2 ∧ p.2 ≤ len) ∧
      ∃ s', ArraySlice.emitSlice a.elemSize name s bounds = .ok s' ∧
        a.Views s' (off + p.1.toNat) (p.2 - p.1).toNat := by
  intro p
  have hstart : (emitBound bounds.start 0 s.length).toInt = p.1 :=
    congrArg Prod.fst (h.toInt_bounds bounds)
  have hstop : (emitBound bounds.stop s.length s.length).toInt = p.2 :=
    congrArg Prod.snd (h.toInt_bounds bounds)
  have hlen : s.length.toInt = len := by rw [h.length, toInt_ofNat h.len_lt]
  have hbad : ((emitBound bounds.start 0 s.length).slt 0 ||
      (emitBound bounds.stop s.length s.length).slt (emitBound bounds.start 0 s.length) ||
      s.length.slt (emitBound bounds.stop s.length s.length)) = true ↔
        ¬ (0 ≤ p.1 ∧ p.1 ≤ p.2 ∧ p.2 ≤ len) := by
    rw [Bool.or_eq_true, Bool.or_eq_true, slt_zero_iff, BitVec.slt_iff_toInt_lt,
      BitVec.slt_iff_toInt_lt, hstart, hstop, hlen]
    omega
  by_cases hp : 0 ≤ p.1 ∧ p.1 ≤ p.2 ∧ p.2 ≤ len
  · refine .inr ⟨hp, _, if_neg fun hb => hbad.1 hb hp, ?_, ?_, ?_⟩
    · simp only [inBoundsGEP, hstart, h.data]
      push_cast
      rw [Int.toNat_of_nonneg hp.1]
      ring
    · rw [← BitVec.toInt_inj, BitVec.toInt_sub, hstart, hstop, toInt_ofNat (by have := h.len_lt; omega),
        Int.bmod_def]
      have := h.len_lt
      omega
    · have := h.le
      omega
  · exact .inl ⟨hp, _, if_pos (hbad.2 hp)⟩

/-- An access through a view panics, or it is at an element of the array, the one that the index
names in the view. -/
theorem Views.emitElementAddress (h : a.Views s off len) (name : Option String) (k : BitVec 64) :
    (listIndex (a.read s) k.toInt = none ∧
      ∃ text, ArraySlice.emitElementAddress a.elemSize name s k = .error text) ∨
    ∃ i < a.elements.length,
      ArraySlice.emitElementAddress a.elemSize name s k = .ok (a.address + a.elemSize * i) ∧
        listIndex (a.read s) k.toInt = some (a.memory (a.address + a.elemSize * i)) := by
  have hle := h.le
  have hlen : s.length.toInt = len := by rw [h.length, toInt_ofNat h.len_lt]
  have hwrap : (emitWrap k s.length).toInt = fromEnd len k.toInt := by
    rw [h.length, toInt_emitWrap h.len_lt]
  have hbad : ((emitWrap k s.length).slt 0 || s.length.sle (emitWrap k s.length)) = true ↔
      ¬ (0 ≤ fromEnd len k.toInt ∧ fromEnd len k.toInt < len) := by
    rw [Bool.or_eq_true, slt_zero_iff, BitVec.sle_iff_toInt_le, hwrap, hlen]
    omega
  unfold listIndex ArraySlice.emitElementAddress emitRuntimeBoundsCheck
  rw [h.length_read]
  by_cases hk : 0 ≤ fromEnd len k.toInt ∧ fromEnd len k.toInt < len
  · obtain ⟨i, hi⟩ : ∃ i : ℕ, fromEnd len k.toInt = i := ⟨_, (Int.toNat_of_nonneg hk.1).symm⟩
    refine .inr ⟨off + i, by omega, ?_, ?_⟩
    · simp only [if_neg (fun hb => hbad.1 hb hk), bind, Except.bind, pure, Except.pure, inBoundsGEP,
        hwrap, hi, h.data]
      push_cast
      ring_nf
    · have hi' : i < (a.read s).length := by rw [h.length_read]; omega
      rw [if_pos hk.1, hi, Int.toNat_natCast, List.getElem?_eq_getElem hi']
      simp only [h.read_eq, List.getElem_take, List.getElem_drop]
      rw [a.stored]
  · refine .inl ⟨?_, "Array index out of bounds for '" ++ arrayDisplayName name ++ "'", ?_⟩
    · split
      · rw [List.getElem?_eq_none_iff, h.length_read]
        omega
      · rfl
    · simp only [if_pos (hbad.2 hk)]
      rfl

/-- A chain of slices panics, or it views the same part of the array that the chain of list slices
is. -/
theorem Views.emitChain (h : a.Views s off len) (name : Option String) (chain : List SliceBounds) :
    (listChain (a.read s) chain = none ∧
      ∃ text, ArraySlice.emitChain a.elemSize name s chain = .error text) ∨
    ∃ s' off' len', ArraySlice.emitChain a.elemSize name s chain = .ok s' ∧ a.Views s' off' len' ∧
      listChain (a.read s) chain = some (a.read s') := by
  induction chain generalizing name s off len with
  | nil => exact .inr ⟨s, off, len, rfl, h, rfl⟩
  | cons bounds chain ih =>
    have hspec := h.emitSlice name bounds
    dsimp only at hspec
    obtain ⟨hout, text, htext⟩ | ⟨hin, s₁, hs₁, h₁⟩ := hspec
    · refine .inl ⟨?_, text, ?_⟩
      · rw [listChain, listSlice, h.length_read, if_neg hout]
        rfl
      · rw [ArraySlice.emitChain, htext]
        rfl
    · have hslice : listSlice (a.read s) (bounds.start.map BitVec.toInt)
          (bounds.stop.map BitVec.toInt) = some (a.read s₁) := by
        rw [listSlice, h.length_read, if_pos hin, h₁.read_eq, h.read_eq, List.take_take,
          List.drop_take, List.drop_drop]
        congr 2
        omega
      rw [listChain, hslice, ArraySlice.emitChain, hs₁]
      exact ih h₁ none

end StoredArray

/-! ### What the checker reports -/

/-- A bound that is omitted or a 64-bit constant. -/
def constantBound : Option (BitVec 64) → CheckedBound
  | none => .omitted
  | some v => .folded v.toInt

theorem knownBound_constantBound (n : ℕ) (default : ℤ) (bound : Option (BitVec 64)) :
    knownBound default n (constantBound bound) =
      some (((bound.map BitVec.toInt).map (fromEnd n)).getD default) := by
  cases bound with
  | none => rfl
  | some v =>
    have hfits : FitsSigned 64 v.toInt := FitsSigned.toInt (by norm_num) v
    simp [knownBound, constantBound, constantSliceBound, hfits, fromEnd]

/-- Of constants the checker reports those that are no positions in order within the array. -/
theorem sliceProblem_isSome (n : ℕ) (bounds : SliceBounds) :
    let p := positions n (bounds.start.map BitVec.toInt) (bounds.stop.map BitVec.toInt)
    (sliceProblem n (constantBound bounds.start) (constantBound bounds.stop)).isSome = true ↔
      ¬ (0 ≤ p.1 ∧ p.1 ≤ p.2 ∧ p.2 ≤ n) := by
  intro p
  unfold sliceProblem
  rw [if_pos (by omega), knownBound_constantBound, knownBound_constantBound]
  have hstart : ((bounds.start.map BitVec.toInt).map (fromEnd n)).getD 0 = p.1 := rfl
  have hstop : ((bounds.stop.map BitVec.toInt).map (fromEnd n)).getD n = p.2 := rfl
  rw [hstart, hstop]
  simp only [Option.any_some, decide_eq_true_eq]
  split
  case isTrue => simp only [Option.isSome_some, true_iff]; omega
  split
  case isTrue => simp only [Option.isSome_some, true_iff]; omega
  split
  case isTrue => simp only [Option.isSome_some, true_iff]; omega
  case isFalse => simp only [Option.isSome_none, Bool.false_eq_true, false_iff]; omega

theorem foldConstantArrayIndex_eq_some {n : ℕ} (hn : n < 2 ^ 31) (name : Option String)
    (k : BitVec 64) (i : ℤ) :
    foldConstantArrayIndex k.toInt n = some i ↔
      ∃ v, emitRuntimeBoundsCheck k (BitVec.ofNat 64 n) name = .ok v ∧ v.toInt = i := by
  have hwrap : (emitWrap k (BitVec.ofNat 64 n)).toInt = fromEnd n k.toInt := toInt_emitWrap hn
  have hbad : ((emitWrap k (BitVec.ofNat 64 n)).slt 0 ||
      (BitVec.ofNat 64 n).sle (emitWrap k (BitVec.ofNat 64 n))) = true ↔
        ¬ (0 ≤ fromEnd n k.toInt ∧ fromEnd n k.toInt < n) := by
    rw [Bool.or_eq_true, slt_zero_iff, BitVec.sle_iff_toInt_le, hwrap, toInt_ofNat hn]
    omega
  have hrange : (-(n : ℤ) ≤ k.toInt ∧ k.toInt < n) ↔
      (0 ≤ fromEnd n k.toInt ∧ fromEnd n k.toInt < n) := by
    unfold fromEnd
    split <;> omega
  unfold foldConstantArrayIndex emitRuntimeBoundsCheck
  by_cases hk : 0 ≤ fromEnd n k.toInt ∧ fromEnd n k.toInt < n
  · rw [if_pos (hrange.2 hk)]
    simp only [if_neg (fun hb => hbad.1 hb hk), Except.ok.injEq, Option.some.injEq,
      exists_eq_left', hwrap, fromEnd]
  · rw [if_neg (fun hr => hk (hrange.1 hr))]
    simp only [if_pos (hbad.2 hk)]
    simp

/-- Any chain of slices of an array with any bounds panics just when the chain of list slices is
none, and what it views are the elements that this has. An access through it panics just when the
index is none of the list, and else is at the element of the array that the list has there. Of
constant bounds the checker reports those that panic; and a constant index of the array itself is
checked as one that is computed. -/
theorem slices_are_list_slices {α : Type} (a : StoredArray α) (name : Option String) :
    (∀ chain text, emitChain a.elemSize name a.whole chain = .error text →
      listChain a.elements chain = none) ∧
    (∀ chain s, emitChain a.elemSize name a.whole chain = .ok s →
      listChain a.elements chain = some (a.read s) ∧
        ∀ (name' : Option String) (k : BitVec 64),
          (∀ text, emitElementAddress a.elemSize name' s k = .error text →
            listIndex (a.read s) k.toInt = none) ∧
          ∀ address, emitElementAddress a.elemSize name' s k = .ok address →
            (∃ i < a.elements.length, address = a.address + a.elemSize * i) ∧
              listIndex (a.read s) k.toInt = some (a.memory address)) ∧
    (∀ bounds, (sliceProblem a.elements.length (constantBound bounds.start)
        (constantBound bounds.stop)).isSome = true ↔
      ∃ text, emitSlice a.elemSize name a.whole bounds = .error text) ∧
    ∀ (k : BitVec 64) (i : ℤ), foldConstantArrayIndex k.toInt a.elements.length = some i ↔
      ∃ v, emitRuntimeBoundsCheck k a.whole.length name = .ok v ∧ v.toInt = i := by
  have hwhole : a.Views a.whole 0 a.elements.length := StoredArray.views_whole
  have hread : a.read a.whole = a.elements := by
    rw [hwhole.read_eq, List.drop_zero, List.take_length]
  refine ⟨fun chain text h => ?_, fun chain s h => ?_, fun bounds => ?_, fun k i => ?_⟩
  · obtain ⟨hnone, -⟩ | ⟨s', off', len', hok, -⟩ := hwhole.emitChain name chain
    · rwa [hread] at hnone
    · rw [hok] at h
      cases h
  · obtain ⟨-, text, herr⟩ | ⟨s', off', len', hok, hview, hlist⟩ := hwhole.emitChain name chain
    · rw [herr] at h
      cases h
    · obtain rfl : s' = s := by
        rw [hok] at h
        injection h
      rw [hread] at hlist
      refine ⟨hlist, fun name' k => ⟨fun text htext => ?_, fun address haddress => ?_⟩⟩
      · obtain ⟨hnone, -⟩ | ⟨i, -, hok', -⟩ := hview.emitElementAddress name' k
        · exact hnone
        · rw [hok'] at htext
          cases htext
      · obtain ⟨-, text, herr⟩ | ⟨i, hi, hok', hsome⟩ := hview.emitElementAddress name' k
        · rw [herr] at haddress
          cases haddress
        · obtain rfl : a.address + a.elemSize * i = address := by
            rw [hok'] at haddress
            injection haddress
          exact ⟨⟨i, hi, rfl⟩, hsome⟩
  · refine (sliceProblem_isSome _ bounds).trans ?_
    obtain ⟨hout, herr⟩ | ⟨hin, s', hok, -⟩ := hwhole.emitSlice name bounds
    · exact iff_of_true hout herr
    · refine iff_of_false (not_not.2 hin) ?_
      rintro ⟨text, htext⟩
      rw [hok] at htext
      cases htext
  · exact foldConstantArrayIndex_eq_some a.size_lt name k i

/-- `[10, 20, 30]` at address 64. -/
def threeInts : StoredArray ℤ where
  elements := [10, 20, 30]
  address := 64
  elemSize := 8
  memory p := 10 * ((p - 64) / 8 + 1)
  size_lt := by decide
  stored i h := by
    simp only [List.length_cons, List.length_nil] at h
    interval_cases i <;> rfl

/-- `a[-2..][..1]` is `[20]`. -/
theorem slices_are_list_slices_sample :
    listChain threeInts.elements [⟨some (-2), none⟩, ⟨none, some 1⟩] =
      some (threeInts.read { data := 72, length := 1 }) :=
  ((slices_are_list_slices threeInts (some "a")).2.1 _ _ (by rfl)).1

end ArraySlice

end Codegen

end TurfLang
