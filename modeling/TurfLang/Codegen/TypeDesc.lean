import TurfLang.Lib.Layout
import TurfLang.Runtime.Reachability

/-!
# `src/codegen/CodegenStruct.cpp`: descriptors

`buildTurfTypeDescInit` walks the layout of a type by byte offsets and sets one bit for each word
at which a pointer starts. The collector reads the bits by word index, once for each element of a
block. `scanBlockPrecise_examines` says that it looks at the pointers of the elements and at
nothing else.
-/

namespace TurfLang

namespace Codegen

open Layout

/-- The scalars of LLVM types. Strings and every kind of pointer are `ptr`. -/
inductive ScalarType
  | i64
  | i32
  | i8
  | i1
  | double
  | ptr
  deriving DecidableEq

/-- The natural alignment of the data layout. -/
instance : Scalars ScalarType where
  storeSize
    | .i64 | .double | .ptr => 8
    | .i32 => 4
    | .i8 | .i1 => 1
  alignLog
    | .i64 | .double | .ptr => 3
    | .i32 => 2
    | .i8 | .i1 => 0

/-- The LLVM types a block may have elements of. -/
abbrev ElemType := Ty ScalarType

/-- `Bitmap[Idx] |= (1ULL << (Word % 64))`, where the word has a bit. -/
def setPointerWord (bitmap : List UInt64) (word : ℕ) : List UInt64 :=
  bitmap.modify (word / 64) fun bits => bits ||| UInt64.ofNat (1 <<< (word % 64))

mutual

/-- `collectPointerWordBits`. -/
def collectPointerWordBits : ElemType → ℕ → List UInt64 → List UInt64
  | .scalar s, byteOffset, bitmap =>
    if s = .ptr then setPointerWord bitmap (byteOffset / 8) else bitmap
  | .struct fields, byteOffset, bitmap => collectFields fields byteOffset 0 bitmap
  | .array elemTy count, byteOffset, bitmap =>
    (List.range count).foldl
      (fun bitmap i => collectPointerWordBits elemTy (byteOffset + i * elemTy.size) bitmap) bitmap

/-- The loop over the fields of a struct, with the `getElementOffset` of each. -/
def collectFields : List ElemType → ℕ → ℕ → List UInt64 → List UInt64
  | [], _, _, bitmap => bitmap
  | f :: fs, byteOffset, fieldsEnd, bitmap =>
    let elementOffset := alignTo fieldsEnd f.align
    collectFields fs byteOffset (elementOffset + f.size)
      (collectPointerWordBits f (byteOffset + elementOffset) bitmap)

end

/-- The bitmap has the word's bit, and it is set. -/
def Marked (bitmap : List UInt64) (word : ℕ) : Prop :=
  ∃ bits, bitmap[word / 64]? = some bits ∧ bits.toNat.testBit (word % 64) = true

/-! ### Setting bits -/

@[simp] theorem length_setPointerWord (bitmap : List UInt64) (word : ℕ) :
    (setPointerWord bitmap word).length = bitmap.length := List.length_modify _ _ _

theorem testBit_or_shift (bits : UInt64) {i j : ℕ} (hi : i < 64) :
    (bits ||| UInt64.ofNat (1 <<< i)).toNat.testBit j = true ↔
      bits.toNat.testBit j = true ∨ j = i := by
  have hlt : 1 <<< i < 2 ^ 64 := by
    rw [Nat.one_shiftLeft]
    exact Nat.pow_lt_pow_right (by norm_num) hi
  rw [UInt64.toNat_or, UInt64.toNat_ofNat_of_lt' hlt, Nat.testBit_or, Bool.or_eq_true,
    Nat.one_shiftLeft, Nat.testBit_two_pow, decide_eq_true_eq, eq_comm (a := i)]

/-- A word outside of the bitmap is not marked and cannot be. -/
theorem marked_setPointerWord (bitmap : List UInt64) (word w : ℕ) :
    Marked (setPointerWord bitmap word) w ↔
      Marked bitmap w ∨ w / 64 < bitmap.length ∧ w = word := by
  unfold Marked setPointerWord
  rw [List.getElem?_modify]
  by_cases hword : word / 64 = w / 64
  · have hsame : w % 64 = word % 64 ↔ w = word := by omega
    rcases lt_or_ge (w / 64) bitmap.length with hw | hw
    · simp only [List.getElem?_eq_getElem hw, hword, if_true, Option.map_eq_map, Option.map_some,
        Option.some.injEq, exists_eq_left', hw, true_and]
      rw [testBit_or_shift _ (Nat.mod_lt _ (by norm_num)), hsame]
    · simp [Nat.not_lt.2 hw]
  · have hne : w ≠ word := fun h => hword (by rw [h])
    simp [hword, hne]

/-- A step that keeps the length of the bitmap and adds the words in `P`, where there are bits for
them. -/
structure Adds (f : List UInt64 → List UInt64) (P : ℕ → Prop) : Prop where
  length_eq (bitmap : List UInt64) : (f bitmap).length = bitmap.length
  marked_iff (bitmap : List UInt64) (w : ℕ) :
    Marked (f bitmap) w ↔ Marked bitmap w ∨ w / 64 < bitmap.length ∧ P w

namespace Adds

variable {f g : List UInt64 → List UInt64} {P Q : ℕ → Prop}

theorem id : Adds (fun bitmap => bitmap) fun _ => False := ⟨fun _ => rfl, by simp⟩

theorem setPointerWord (word : ℕ) : Adds (Codegen.setPointerWord · word) fun w => w = word :=
  ⟨fun _ => length_setPointerWord _ _, fun _ _ => marked_setPointerWord _ _ _⟩

theorem comp (hf : Adds f P) (hg : Adds g Q) : Adds (fun bitmap => g (f bitmap))
    fun w => P w ∨ Q w where
  length_eq bitmap := (hg.length_eq _).trans (hf.length_eq _)
  marked_iff bitmap w := by
    rw [hg.marked_iff, hf.marked_iff, hf.length_eq, or_assoc, ← and_or_left]

theorem congr (hf : Adds f P) (h : ∀ w, P w ↔ Q w) : Adds f Q where
  length_eq := hf.length_eq
  marked_iff bitmap w := by rw [hf.marked_iff, h]

/-- A loop adds what its turns add. -/
theorem foldl {step : ℕ → List UInt64 → List UInt64} {R : ℕ → ℕ → Prop}
    (h : ∀ i, Adds (step i) (R i)) (count : ℕ) :
    Adds (fun bitmap => (List.range count).foldl (fun bitmap i => step i bitmap) bitmap)
      fun w => ∃ i < count, R i w := by
  induction count with
  | zero => exact id.congr fun w => by simp
  | succ count ih =>
    simp only [List.range_succ, List.foldl_append, List.foldl_cons, List.foldl_nil]
    refine (ih.comp (h count)).congr fun w => ?_
    constructor
    · rintro (⟨i, hi, hw⟩ | hw)
      · exact ⟨i, hi.trans (Nat.lt_succ_self count), hw⟩
      · exact ⟨count, Nat.lt_succ_self count, hw⟩
    · rintro ⟨i, hi, hw⟩
      rcases Nat.lt_succ_iff_lt_or_eq.1 hi with hi | rfl
      · exact .inl ⟨i, hi, hw⟩
      · exact .inr hw

end Adds

mutual

/-- The words that a type adds are those of its pointers. -/
theorem adds_collectPointerWordBits (T : ElemType) (byteOffset : ℕ) :
    Adds (collectPointerWordBits T byteOffset)
      fun w => ∃ o, T.Leaf .ptr o ∧ w = (byteOffset + o) / 8 := by
  match T with
  | .scalar s =>
    by_cases hs : s = .ptr
    · have h := (Adds.setPointerWord (byteOffset / 8)).congr
        (Q := fun w => ∃ o, (Ty.scalar s).Leaf .ptr o ∧ w = (byteOffset + o) / 8)
        fun w => by simp [Ty.Leaf, hs]
      simpa [collectPointerWordBits, hs] using h
    · have h := Adds.id.congr
        (Q := fun w => ∃ o, (Ty.scalar s).Leaf .ptr o ∧ w = (byteOffset + o) / 8)
        fun w => by simp [Ty.Leaf, hs]
      simpa [collectPointerWordBits, hs] using h
  | .struct fields =>
    have h := adds_collectFields fields byteOffset 0
    simpa only [collectPointerWordBits, Ty.Leaf] using h
  | .array elemTy count =>
    have h := Adds.foldl
      (fun i => adds_collectPointerWordBits elemTy (byteOffset + i * elemTy.size)) count
    refine (h.congr fun w => ?_ : Adds (collectPointerWordBits (.array elemTy count) byteOffset) _)
    simp only [Ty.Leaf]
    constructor
    · rintro ⟨i, hi, o, ho, rfl⟩
      exact ⟨i * elemTy.size + o, ⟨i, hi, o, ho, rfl⟩, by rw [Nat.add_assoc]⟩
    · rintro ⟨_, ⟨i, hi, o, ho, rfl⟩, rfl⟩
      exact ⟨i, hi, o, ho, by rw [Nat.add_assoc]⟩

theorem adds_collectFields (fs : List ElemType) (byteOffset fieldsEnd : ℕ) :
    Adds (collectFields fs byteOffset fieldsEnd)
      fun w => ∃ o, LeafAfter fs fieldsEnd .ptr o ∧ w = (byteOffset + o) / 8 := by
  match fs with
  | [] => exact Adds.id.congr fun w => by simp [LeafAfter]
  | f :: fs =>
    have h := (adds_collectPointerWordBits f (byteOffset + alignTo fieldsEnd f.align)).comp
      (adds_collectFields fs byteOffset (alignTo fieldsEnd f.align + f.size))
    refine (h.congr fun w => ?_ : Adds (collectFields (f :: fs) byteOffset fieldsEnd) _)
    simp only [LeafAfter]
    constructor
    · rintro (⟨o, ho, rfl⟩ | ⟨o, ho, rfl⟩)
      · exact ⟨_, .inl ⟨o, ho, rfl⟩, by rw [Nat.add_assoc]⟩
      · exact ⟨o, .inr ho, rfl⟩
    · rintro ⟨_, ⟨o, ho, rfl⟩ | ho, rfl⟩
      · exact .inl ⟨o, ho, by rw [Nat.add_assoc]⟩
      · exact .inr ⟨_, ho, rfl⟩

end

/-! ### The descriptor -/

/-- `buildTurfTypeDescInit`. -/
def buildTurfTypeDescInit (T : ElemType) : Gc.TypeDesc where
  size := T.size
  wordCount := (T.size + 7) / 8
  pointerWords :=
    collectPointerWordBits T 0 (List.replicate (max 1 (((T.size + 7) / 8 + 63) / 64)) 0)
  wordCount_eq := rfl
  length_eq := by rw [(adds_collectPointerWordBits T 0).length_eq, List.length_replicate]

theorem not_marked_replicate (n w : ℕ) : ¬ Marked (List.replicate n 0) w := by
  rintro ⟨bits, hbits, hbit⟩
  rw [List.eq_of_mem_replicate (List.mem_of_getElem? hbits)] at hbit
  simp at hbit

/-- A pointer of a type lies on whole words, inside the type. -/
theorem pointer_spec {T : ElemType} {o : ℕ} (h : T.Leaf .ptr o) : 8 ∣ o ∧ o + 8 ≤ T.size :=
  ⟨h.aligned, h.le_size⟩

/-- The descriptor marks word `i` exactly if a pointer starts there. -/
theorem marks_buildTurfTypeDescInit {T : ElemType} {i : ℕ} :
    (buildTurfTypeDescInit T).Marks i ↔ T.Leaf .ptr (i * 8) := by
  have hmarked := (adds_collectPointerWordBits T 0).marked_iff
    (List.replicate (max 1 (((T.size + 7) / 8 + 63) / 64)) 0) i
  simp only [not_marked_replicate, false_or, List.length_replicate, Nat.zero_add] at hmarked
  constructor
  · rintro ⟨-, hi⟩
    obtain ⟨-, o, ho, rfl⟩ := hmarked.1 hi
    rw [Nat.div_mul_cancel (pointer_spec ho).1]
    exact ho
  · intro ho
    have hle := (pointer_spec ho).2
    refine ⟨?_, hmarked.2 ⟨?_, i * 8, ho, by omega⟩⟩
    · change i < (T.size + 7) / 8
      omega
    · omega

/-! ### The scan -/

/-- The addresses at which `gc_scan_block_precise` reads a word. -/
def examined (b : Gc.Block) : List ℕ :=
  match b.desc with
  | none => []
  | some desc =>
    (Gc.strides desc.size 0 b.size).flatMap fun off =>
      (List.range desc.wordCount).filterMap fun w =>
        if desc.isPointerWord w ∧ b.start + off + w * 8 + 8 ≤ b.start + b.size then
          some (b.start + off + w * 8)
        else none

/-- The scan considers the words at these addresses, in this order, and no others. -/
theorem scanBlockPrecise_eq_examined (mem : Gc.Memory) (b : Gc.Block) (m : Gc.Marking) :
    Gc.scanBlockPrecise mem b m =
      (examined b).foldl (fun m addr => Gc.considerRoot m (Gc.wordAt mem addr)) m := by
  have h : Gc.pointerWords mem b = (examined b).map (Gc.wordAt mem) := by
    unfold Gc.pointerWords examined
    cases b.desc with
    | none => rfl
    | some desc =>
      simp only [List.map_flatMap, List.map_filterMap]
      congr 1
      funext off
      congr 1
      funext w
      split <;> rfl
  rw [Gc.scanBlockPrecise_eq, h, List.foldl_map]

/-- A block of elements of one type. -/
theorem mem_examined {T : ElemType} {start size a : ℕ} :
    a ∈ examined ⟨start, size, some (buildTurfTypeDescInit T)⟩ ↔
      ∃ k, (k + 1) * T.size ≤ size ∧ ∃ o, T.Leaf .ptr o ∧ a = start + k * T.size + o := by
  constructor
  · intro h
    obtain ⟨off, hoff, h⟩ := List.mem_flatMap.1 h
    obtain ⟨w, -, h⟩ := List.mem_filterMap.1 h
    obtain ⟨⟨hw, -⟩, rfl⟩ := Option.ite_none_right_eq_some.1 h |>.imp_right Option.some.inj
    have ho := marks_buildTurfTypeDescInit.1 (Gc.isPointerWord_iff.1 hw)
    have hpos : 0 < T.size := by
      have := (pointer_spec ho).2
      omega
    obtain ⟨k, rfl, hk⟩ := (Gc.mem_strides hpos).1 hoff
    rw [Nat.zero_add] at hk ⊢
    exact ⟨k, by rw [Nat.succ_mul]; exact hk, w * 8, ho, rfl⟩
  · rintro ⟨k, hk, o, ho, rfl⟩
    obtain ⟨hdvd, hle⟩ := pointer_spec ho
    rw [Nat.succ_mul] at hk
    have hmark : (buildTurfTypeDescInit T).Marks (o / 8) := by
      rw [marks_buildTurfTypeDescInit, Nat.div_mul_cancel hdvd]
      exact ho
    refine List.mem_flatMap.2 ⟨k * T.size, (Gc.mem_strides ?_).2 ⟨k, (Nat.zero_add _).symm, hk⟩,
      List.mem_filterMap.2 ⟨o / 8, List.mem_range.2 hmark.1, ?_⟩⟩
    · change 0 < T.size
      omega
    · have hfit : start + k * T.size + o + 8 ≤ start + size := by omega
      rw [Nat.div_mul_cancel hdvd, if_pos ⟨Gc.isPointerWord_iff.2 hmark, hfit⟩]

/-- The collector looks at the pointers of every element of a block and at nothing else. Of the
first `n` elements it reads exactly the words at which a pointer starts, and no read leaves the
block. -/
theorem scanBlockPrecise_examines (T : ElemType) (start size n : ℕ) (hn : n * T.size ≤ size) :
    (∀ (mem : Gc.Memory) (m : Gc.Marking),
      Gc.scanBlockPrecise mem ⟨start, size, some (buildTurfTypeDescInit T)⟩ m =
        (examined ⟨start, size, some (buildTurfTypeDescInit T)⟩).foldl
          (fun m addr => Gc.considerRoot m (Gc.wordAt mem addr)) m) ∧
      (∀ a < start + n * T.size, a ∈ examined ⟨start, size, some (buildTurfTypeDescInit T)⟩ ↔
        ∃ k < n, ∃ o, T.Leaf .ptr o ∧ a = start + k * T.size + o) ∧
      (∀ a, a ∈ examined ⟨start, size, some (buildTurfTypeDescInit T)⟩ ↔
        ∃ k, (k + 1) * T.size ≤ size ∧ ∃ o, T.Leaf .ptr o ∧ a = start + k * T.size + o) ∧
      ∀ a ∈ examined ⟨start, size, some (buildTurfTypeDescInit T)⟩,
        start ≤ a ∧ a + 8 ≤ start + size := by
  refine ⟨fun mem m => scanBlockPrecise_eq_examined mem _ m, fun a ha => ?_,
    fun a => mem_examined, fun a ha => ?_⟩
  · rw [mem_examined]
    constructor
    · rintro ⟨k, _, o, ho, rfl⟩
      refine ⟨k, ?_, o, ho, rfl⟩
      by_contra hk
      have hmul : n * T.size ≤ k * T.size := Nat.mul_le_mul_right _ (not_lt.1 hk)
      omega
    · rintro ⟨k, hk, o, ho, rfl⟩
      have hmul : (k + 1) * T.size ≤ n * T.size := Nat.mul_le_mul_right _ hk
      exact ⟨k, hmul.trans hn, o, ho, rfl⟩
  · obtain ⟨k, hk, o, ho, rfl⟩ := mem_examined.1 ha
    have hle := (pointer_spec ho).2
    rw [Nat.succ_mul] at hk
    constructor <;> omega

/-- Two elements of `{ i32, [2 x ptr] }` in a block with room for two and a half. -/
theorem scanBlockPrecise_examines_pair :
    let T : ElemType := .struct [.scalar .i32, .array (.scalar .ptr) 2]
    let b : Gc.Block := ⟨4096, 60, some (buildTurfTypeDescInit T)⟩
    (∀ (mem : Gc.Memory) (m : Gc.Marking), Gc.scanBlockPrecise mem b m =
        (examined b).foldl (fun m addr => Gc.considerRoot m (Gc.wordAt mem addr)) m) ∧
      (∀ a < 4096 + 2 * T.size, a ∈ examined b ↔
        ∃ k < 2, ∃ o, T.Leaf .ptr o ∧ a = 4096 + k * T.size + o) ∧
      (∀ a, a ∈ examined b ↔
        ∃ k, (k + 1) * T.size ≤ 60 ∧ ∃ o, T.Leaf .ptr o ∧ a = 4096 + k * T.size + o) ∧
      ∀ a ∈ examined b, 4096 ≤ a ∧ a + 8 ≤ 4096 + 60 :=
  scanBlockPrecise_examines _ 4096 60 2 (by decide)

end Codegen

end TurfLang
