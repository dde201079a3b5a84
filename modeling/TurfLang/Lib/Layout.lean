import Mathlib.Tactic

/-!
# Natural alignment

Nested arrays and structs over scalars with a size and a power of two as alignment. A struct puts
each field at the next offset that is aligned for it and is as aligned as its most aligned field;
every size is a multiple of the alignment. A scalar anywhere in a value is then aligned, and lies
within the size.
-/

namespace Layout

/-- Scalars with the number of their bytes and the logarithm of their alignment. -/
class Scalars (σ : Type*) where
  storeSize : σ → ℕ
  alignLog : σ → ℕ

/-- A scalar, an array or a struct. -/
inductive Ty (σ : Type*)
  | scalar (s : σ)
  | array (element : Ty σ) (count : ℕ)
  | struct (fields : List (Ty σ))

/-- The next multiple of an alignment. -/
def alignTo (n align : ℕ) : ℕ := (n + align - 1) / align * align

theorem dvd_alignTo (n align : ℕ) : align ∣ alignTo n align := Dvd.intro_left _ rfl

theorem le_alignTo {n align : ℕ} (h : 0 < align) : n ≤ alignTo n align := by
  have hdiv := Nat.div_add_mod (n + align - 1) align
  have hmod := Nat.mod_lt (n + align - 1) h
  rw [Nat.mul_comm] at hdiv
  unfold alignTo
  omega

variable {σ : Type*} [Scalars σ]

mutual

/-- The logarithm of a type's alignment. -/
def Ty.alignLog : Ty σ → ℕ
  | .scalar s => Scalars.alignLog s
  | .array element _ => element.alignLog
  | .struct fields => alignLogs fields

def alignLogs : List (Ty σ) → ℕ
  | [] => 0
  | f :: fs => max f.alignLog (alignLogs fs)

end

/-- A type's alignment. -/
def Ty.align (T : Ty σ) : ℕ := 2 ^ T.alignLog

theorem Ty.align_pos (T : Ty σ) : 0 < T.align := Nat.two_pow_pos _

mutual

/-- The bytes from one value of the type to the next. -/
def Ty.size : Ty σ → ℕ
  | .scalar s => alignTo (Scalars.storeSize s) (2 ^ Scalars.alignLog s)
  | .array element count => count * element.size
  | .struct fields => alignTo (endOffset fields 0) (2 ^ alignLogs fields)

/-- Where the last of the fields ends that start after the given offset. -/
def endOffset : List (Ty σ) → ℕ → ℕ
  | [], offset => offset
  | f :: fs, offset => endOffset fs (alignTo offset f.align + f.size)

end

mutual

/-- A value of the type has the scalar at the offset. -/
def Ty.Leaf : Ty σ → σ → ℕ → Prop
  | .scalar s', s, o => s' = s ∧ o = 0
  | .array element count, s, o => ∃ i < count, ∃ o', element.Leaf s o' ∧ o = i * element.size + o'
  | .struct fields, s, o => LeafAfter fields 0 s o

/-- The same of the fields that start after an offset. -/
def LeafAfter : List (Ty σ) → ℕ → σ → ℕ → Prop
  | [], _, _, _ => False
  | f :: fs, offset, s, o =>
    (∃ o', f.Leaf s o' ∧ o = alignTo offset f.align + o') ∨
      LeafAfter fs (alignTo offset f.align + f.size) s o

end

/-! ### Alignment -/

/-- A size is a multiple of the alignment. -/
theorem Ty.align_dvd_size (T : Ty σ) : T.align ∣ T.size := by
  match T with
  | .scalar _ => exact dvd_alignTo _ _
  | .array element count =>
    have h : element.align ∣ element.size := element.align_dvd_size
    rw [Ty.size]
    exact h.mul_left count
  | .struct _ => exact dvd_alignTo _ _

mutual

theorem Ty.Leaf.alignLog_le {T : Ty σ} {s : σ} {o : ℕ} (h : T.Leaf s o) :
    Scalars.alignLog s ≤ T.alignLog := by
  match T with
  | .scalar s' =>
    rw [Ty.Leaf] at h
    rw [Ty.alignLog, h.1]
  | .array element count =>
    rw [Ty.Leaf] at h
    obtain ⟨_, _, o', h, _⟩ := h
    rw [Ty.alignLog]
    exact Ty.Leaf.alignLog_le h
  | .struct fields =>
    rw [Ty.Leaf] at h
    rw [Ty.alignLog]
    exact LeafAfter.alignLog_le h

theorem LeafAfter.alignLog_le {fs : List (Ty σ)} {offset : ℕ} {s : σ} {o : ℕ}
    (h : LeafAfter fs offset s o) : Scalars.alignLog s ≤ alignLogs fs := by
  match fs with
  | [] => exact h.elim
  | f :: fs =>
    rw [LeafAfter] at h
    rw [alignLogs]
    rcases h with ⟨o', h, _⟩ | h
    · exact le_max_of_le_left (Ty.Leaf.alignLog_le h)
    · exact le_max_of_le_right (LeafAfter.alignLog_le h)

end

/-- The alignment of a scalar in a value divides that of the type. -/
theorem Ty.Leaf.align_dvd {T : Ty σ} {s : σ} {o : ℕ} (h : T.Leaf s o) :
    2 ^ Scalars.alignLog s ∣ T.align := pow_dvd_pow 2 h.alignLog_le

mutual

/-- A scalar is aligned wherever it stands. -/
theorem Ty.Leaf.aligned {T : Ty σ} {s : σ} {o : ℕ} (h : T.Leaf s o) :
    2 ^ Scalars.alignLog s ∣ o := by
  match T with
  | .scalar s' =>
    rw [Ty.Leaf] at h
    rw [h.2]
    exact dvd_zero _
  | .array element count =>
    rw [Ty.Leaf] at h
    obtain ⟨i, _, o', h, rfl⟩ := h
    have hsize : 2 ^ Scalars.alignLog s ∣ element.size := h.align_dvd.trans element.align_dvd_size
    exact dvd_add (hsize.mul_left i) (Ty.Leaf.aligned h)
  | .struct fields =>
    rw [Ty.Leaf] at h
    exact LeafAfter.aligned h

theorem LeafAfter.aligned {fs : List (Ty σ)} {offset : ℕ} {s : σ} {o : ℕ}
    (h : LeafAfter fs offset s o) : 2 ^ Scalars.alignLog s ∣ o := by
  match fs with
  | [] => exact h.elim
  | f :: fs =>
    rw [LeafAfter] at h
    rcases h with ⟨o', h, rfl⟩ | h
    · exact dvd_add (h.align_dvd.trans (dvd_alignTo _ _)) (Ty.Leaf.aligned h)
    · exact LeafAfter.aligned h

end

/-! ### Bounds -/

theorem le_endOffset (fs : List (Ty σ)) (offset : ℕ) : offset ≤ endOffset fs offset := by
  induction fs generalizing offset with
  | nil => rw [endOffset]
  | cons f fs ih =>
    rw [endOffset]
    have hle : offset ≤ alignTo offset f.align := le_alignTo f.align_pos
    exact (hle.trans (Nat.le_add_right _ _)).trans (ih _)

mutual

/-- A scalar ends within the size. -/
theorem Ty.Leaf.le_size {T : Ty σ} {s : σ} {o : ℕ} (h : T.Leaf s o) :
    o + Scalars.storeSize s ≤ T.size := by
  match T with
  | .scalar s' =>
    rw [Ty.Leaf] at h
    obtain ⟨rfl, rfl⟩ := h
    rw [Ty.size, Nat.zero_add]
    exact le_alignTo (Nat.two_pow_pos _)
  | .array element count =>
    rw [Ty.Leaf] at h
    obtain ⟨i, hi, o', h, rfl⟩ := h
    have hle := Ty.Leaf.le_size h
    have hmul : (i + 1) * element.size ≤ count * element.size := Nat.mul_le_mul_right _ hi
    rw [Ty.size]
    rw [Nat.succ_mul] at hmul
    omega
  | .struct fields =>
    rw [Ty.Leaf] at h
    rw [Ty.size]
    exact (LeafAfter.le_endOffset h).trans (le_alignTo (Nat.two_pow_pos _))

theorem LeafAfter.le_endOffset {fs : List (Ty σ)} {offset : ℕ} {s : σ} {o : ℕ}
    (h : LeafAfter fs offset s o) : o + Scalars.storeSize s ≤ endOffset fs offset := by
  match fs with
  | [] => exact h.elim
  | f :: fs =>
    rw [LeafAfter] at h
    rw [endOffset]
    rcases h with ⟨o', h, rfl⟩ | h
    · have hle := Ty.Leaf.le_size h
      have hend := Layout.le_endOffset fs (alignTo offset f.align + f.size)
      omega
    · exact LeafAfter.le_endOffset h

end

end Layout
