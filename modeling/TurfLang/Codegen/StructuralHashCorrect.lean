import TurfLang.Codegen.StructuralHash

/-!
# When equal values hash equally

Two values that are equal field by field differ for `hash_of` only in the addresses of their
errors, so a type respects `==` exactly when the hash comes by no error. That a differing error is
seen in the whole hash rests on each step of the fold being injective in both of its arguments.
-/

namespace TurfLang.StructuralHash

/-! ### The types the hash sees an error in -/

mutual

/-- `emitHashRec` folds the address of an error into the state: there is an error no deeper than
16 below, and in no array without elements. -/
def Ty.hashesError : Ty → ℕ → Bool
  | .error _, depth => depth ≤ 16
  | .array element size, depth => depth ≤ 16 && 0 < size && element.hashesError (depth + 1)
  | .slice element, depth => depth ≤ 16 && element.hashesError (depth + 1)
  | .struct _ fields, depth => depth ≤ 16 && fields.hashesError (depth + 1)
  | _, _ => false

/-- The same of a field. -/
def Fields.hashesError : Fields → ℕ → Bool
  | .nil, _ => false
  | .cons type rest, depth => type.hashesError depth || rest.hashesError depth

end

/-- What holds of the leaves and goes up from the parts holds of every type, and of the fields of
every struct. -/
theorem Ty.induction {P : Ty → Prop} {Q : Fields → Prop} (integer : ∀ k, P (.integer k))
    (double : P .double) (string : P .string) (error : ∀ e, P (.error e))
    (pointer : ∀ p, P (.pointer p)) (array : ∀ T size, P T → P (.array T size))
    (slice : ∀ T, P T → P (.slice T)) (struct : ∀ s fs, Q fs → P (.struct s fs)) (nil : Q .nil)
    (cons : ∀ T fs, P T → Q fs → Q (.cons T fs)) : (∀ T, P T) ∧ ∀ fs, Q fs :=
  ⟨@Ty.rec P Q integer double string error pointer array slice struct nil cons,
    @Fields.rec P Q integer double string error pointer array slice struct nil cons⟩

variable {m : Memory}

/-! ### Equal values, type by type -/

theorem same_integer {k : IntKind} {a b : BitVec k.width} :
    Same m (.integer k) a b ↔ a = b := decide_eq_true_iff

theorem same_double {a b : BitVec 64} : Same m .double a b ↔ fcmpOEQ a b = true := Iff.rfl

theorem same_string {a b : Addr} : Same m .string a b ↔ strcmpEq m a b = some true := Iff.rfl

theorem same_error {e : String} {a b : Addr} : Same m (.error e) a b ↔
    a = b ∨ (do strcmpEq m (← loadTag m a) (← loadTag m b)) = some true :=
  or_congr_left decide_eq_true_iff

theorem same_pointer {p : String} {a b : Addr} : Same m (.pointer p) a b ↔ a = b :=
  decide_eq_true_iff

theorem same_array {T : Ty} {size : ℕ} {a b : Fin size → Value T} :
    Same m (.array T size) a b ↔ ∀ i, Same m T (a i) (b i) := Iff.rfl

theorem same_slice {T : Ty} {a b : List (Value T)} :
    Same m (.slice T) a b ↔ List.Forall₂ (Same m T) a b := Iff.rfl

theorem same_struct {s : String} {fs : Fields} {a b : Values fs} :
    Same m (.struct s fs) a b ↔ SameFields m fs a b := Iff.rfl

/-! ### The hash, type by type -/

section Shallow

variable {h : BitVec 64} {depth : ℕ} (hle : depth ≤ 16)

include hle

theorem emitHashRec_error {e : String} {a : Addr} :
    emitHashRec m (.error e) a h depth = hashCombine h a :=
  if_neg (Nat.not_lt.mpr hle)

theorem emitHashRec_array {T : Ty} {size : ℕ} {a : Fin size → Value T} :
    emitHashRec m (.array T size) a h depth =
      (List.ofFn a).foldl (fun acc x => emitHashRec m T x acc (depth + 1)) h :=
  if_neg (Nat.not_lt.mpr hle)

theorem emitHashRec_slice {T : Ty} {a : List (Value T)} :
    emitHashRec m (.slice T) a h depth =
      a.foldl (fun acc x => emitHashRec m T x acc (depth + 1)) h :=
  if_neg (Nat.not_lt.mpr hle)

theorem emitHashRec_struct {s : String} {fs : Fields} {a : Values fs} :
    emitHashRec m (.struct s fs) a h depth = emitHashFields m fs a h (depth + 1) :=
  if_neg (Nat.not_lt.mpr hle)

end Shallow

/-- Below a depth of 16 nothing is hashed. -/
theorem emitHashRec_deep {T : Ty} {v : Value T} {h : BitVec 64} {depth : ℕ} (hdeep : 16 < depth) :
    emitHashRec m T v h depth = h := by
  cases T
  all_goals exact if_pos hdeep

/-! ### Equal parts hash equally -/

theorem hashedDouble_of_isZero {a : BitVec 64} (ha : isNaN a = false) (hzero : isZero a = true) :
    hashedDouble a = 0#64 := by
  have hnan : isNaN 0#64 = false := by decide
  have hz : isZero 0#64 = true := by decide
  have h : fcmpOEQ a 0#64 = true := by
    rw [fcmpOEQ, ha, hzero, hnan, hz]
    simp
  rw [hashedDouble, if_pos h]

theorem hashedDouble_eq {a b : BitVec 64} (h : fcmpOEQ a b = true) :
    hashedDouble a = hashedDouble b := by
  simp only [fcmpOEQ, Bool.and_eq_true, Bool.not_eq_true', Bool.or_eq_true,
    decide_eq_true_eq] at h
  obtain ⟨⟨ha, hb⟩, rfl | ⟨hazero, hbzero⟩⟩ := h
  · rfl
  · rw [hashedDouble_of_isZero ha hazero, hashedDouble_of_isZero hb hbzero]

theorem hashCStr_eq {a b : Addr} (h : strcmpEq m a b = some true) :
    hashCStr m a = hashCStr m b := by
  rw [strcmpEq] at h
  split at h
  case isTrue => cases h
  case isFalse hnull =>
    rw [not_or] at hnull
    have htext : m.cstr a = m.cstr b := by simpa using h
    rw [hashCStr, hashCStr, if_neg hnull.1, if_neg hnull.2, htext]

theorem foldl_eq_of_forall₂ {α β : Type} {R : α → α → Prop} {f : β → α → β}
    (hf : ∀ acc x y, R x y → f acc x = f acc y) {xs ys : List α} (h : List.Forall₂ R xs ys)
    (acc : β) : xs.foldl f acc = ys.foldl f acc := by
  induction h generalizing acc with
  | nil => rfl
  | cons hxy _ ih => rw [List.foldl_cons, List.foldl_cons, hf acc _ _ hxy, ih]

theorem forall₂_ofFn {α : Type} {R : α → α → Prop} {n : ℕ} {a b : Fin n → α}
    (h : ∀ i, R (a i) (b i)) : List.Forall₂ R (List.ofFn a) (List.ofFn b) := by
  rw [List.forall₂_iff_get]
  refine ⟨by simp, fun i hi _ => ?_⟩
  simpa using h ⟨i, by simpa using hi⟩

/-- Where the hash comes by no error, values that are equal field by field are folded to the same
state. -/
theorem emitHashRec_eq (T : Ty) : ∀ depth, T.hashesError depth = false → ∀ a b, Same m T a b →
    ∀ h, emitHashRec m T a h depth = emitHashRec m T b h depth := by
  refine (Ty.induction
    (P := fun T => ∀ depth, T.hashesError depth = false → ∀ a b, Same m T a b →
      ∀ h, emitHashRec m T a h depth = emitHashRec m T b h depth)
    (Q := fun fs => ∀ depth, fs.hashesError depth = false → ∀ a b, SameFields m fs a b →
      ∀ h, emitHashFields m fs a h depth = emitHashFields m fs b h depth)
    ?integer ?double ?string ?error ?pointer ?array ?slice ?struct ?nil ?cons).1 T
  case integer =>
    intro k depth _ a b hab h
    exact congrArg (fun v => emitHashRec m (.integer k) v h depth) (same_integer.mp hab)
  case double =>
    intro depth _ a b hab h
    rw [emitHashRec, emitHashRec, hashedDouble_eq (same_double.mp hab)]
  case string =>
    intro depth _ a b hab h
    rw [emitHashRec, emitHashRec, hashCStr_eq (same_string.mp hab)]
  case error =>
    intro e depth hdepth a b _ h
    have hdeep : 16 < depth := by simpa [Ty.hashesError] using hdepth
    rw [emitHashRec_deep hdeep, emitHashRec_deep hdeep]
  case pointer =>
    intro p depth _ a b hab h
    exact congrArg (fun v => emitHashRec m (.pointer p) v h depth) (same_pointer.mp hab)
  case array =>
    intro T size ih depth hdepth (a : Fin size → Value T) (b : Fin size → Value T) hab h
    obtain hdeep | hle := lt_or_ge 16 depth
    · rw [emitHashRec_deep hdeep, emitHashRec_deep hdeep]
    · rw [emitHashRec_array hle, emitHashRec_array hle]
      cases size with
      | zero => rw [List.ofFn_zero, List.ofFn_zero]
      | succ size =>
        have hT : T.hashesError (depth + 1) = false := by
          simpa [Ty.hashesError, hle] using hdepth
        exact foldl_eq_of_forall₂ (fun acc x y hxy => ih (depth + 1) hT x y hxy acc)
          (forall₂_ofFn hab) h
  case slice =>
    intro T ih depth hdepth (a : List (Value T)) (b : List (Value T)) hab h
    obtain hdeep | hle := lt_or_ge 16 depth
    · rw [emitHashRec_deep hdeep, emitHashRec_deep hdeep]
    · have hT : T.hashesError (depth + 1) = false := by
        simpa [Ty.hashesError, hle] using hdepth
      rw [emitHashRec_slice hle, emitHashRec_slice hle]
      exact foldl_eq_of_forall₂ (fun acc x y hxy => ih (depth + 1) hT x y hxy acc) hab h
  case struct =>
    intro s fs ih depth hdepth (a : Values fs) (b : Values fs) hab h
    obtain hdeep | hle := lt_or_ge 16 depth
    · rw [emitHashRec_deep hdeep, emitHashRec_deep hdeep]
    · have hfs : fs.hashesError (depth + 1) = false := by
        simpa [Ty.hashesError, hle] using hdepth
      rw [emitHashRec_struct hle, emitHashRec_struct hle]
      exact ih (depth + 1) hfs a b hab h
  case nil =>
    intro depth _ a b _ h
    rfl
  case cons =>
    intro T fs hT hfs depth hdepth (a : Value T × Values fs) (b : Value T × Values fs) hab h
    rw [Fields.hashesError, Bool.or_eq_false_iff] at hdepth
    calc emitHashFields m (.cons T fs) a h depth
        = emitHashFields m fs a.2 (emitHashRec m T b.1 h depth) depth := by
          rw [emitHashFields, hT depth hdepth.1 a.1 b.1 hab.1 h]
      _ = emitHashFields m (.cons T fs) b h depth := hfs depth hdepth.2 a.2 b.2 hab.2 _

/-! ### The hash forgets nothing of its state -/

theorem hashMix_injective : Function.Injective hashMix := by
  have h₁ := Mixing.mul_injective (w := 64) (c := 0xbf58476d1ce4e5b9#64)
    (d := 0x96de1b173f119089#64) (by decide)
  have h₂ := Mixing.mul_injective (w := 64) (c := 0x94d049bb133111eb#64)
    (d := 0x319642b2d24d8ec3#64) (by decide)
  exact (Mixing.xor_ushiftRight_injective (by decide)).comp
    (h₂.comp ((Mixing.xor_ushiftRight_injective (by decide)).comp
      (h₁.comp (Mixing.xor_ushiftRight_injective (by decide)))))

theorem hashCombine_injective (h : BitVec 64) : Function.Injective (hashCombine h) :=
  hashMix_injective.comp fun _ _ hxy => (BitVec.xor_right_inj _).mp hxy

theorem hashCombine_state_injective (part : BitVec 64) :
    Function.Injective fun h => hashCombine h part := by
  intro h₁ h₂ heq
  have hmul := (BitVec.xor_left_inj _).mp (hashMix_injective heq)
  exact Mixing.mul_injective (d := 0xce965057aff6957b#64) (by decide) hmul

theorem foldl_injective {α β : Type} {f : β → α → β} (hf : ∀ x, Function.Injective fun b => f b x)
    (xs : List α) : Function.Injective fun b => xs.foldl f b := by
  induction xs with
  | nil => exact fun _ _ h => h
  | cons x xs ih => exact ih.comp (hf x)

/-- Different states stay different. -/
theorem emitHash_injective :
    (∀ (T : Ty) v depth, Function.Injective fun h => emitHashRec m T v h depth) ∧
      ∀ (fs : Fields) v depth, Function.Injective fun h => emitHashFields m fs v h depth := by
  have hdeep {f : BitVec 64 → BitVec 64} (depth : ℕ) (hf : Function.Injective f) :
      Function.Injective fun h => if depth > 16 then h else f h := by
    by_cases h : depth > 16
    · simp only [if_pos h]
      exact Function.injective_id
    · simpa only [if_neg h] using hf
  refine Ty.induction
    (P := fun T => ∀ v depth, Function.Injective fun h => emitHashRec m T v h depth)
    (Q := fun fs => ∀ v depth, Function.Injective fun h => emitHashFields m fs v h depth)
    ?integer ?double ?string ?error ?pointer ?array ?slice ?struct ?nil ?cons
  case integer =>
    intro k v depth
    exact hdeep depth (hashCombine_state_injective _)
  case double =>
    intro v depth
    exact hdeep depth (hashCombine_state_injective _)
  case string =>
    intro v depth
    exact hdeep depth (hashCombine_state_injective _)
  case error =>
    intro e v depth
    exact hdeep depth (hashCombine_state_injective _)
  case pointer =>
    intro p v depth
    exact hdeep depth (hashCombine_state_injective _)
  case array =>
    intro T size ih v depth
    exact hdeep depth (foldl_injective (fun x => ih x (depth + 1)) _)
  case slice =>
    intro T ih v depth
    exact hdeep depth (foldl_injective (fun x => ih x (depth + 1)) _)
  case struct =>
    intro s fs ih v depth
    exact hdeep depth (ih v (depth + 1))
  case nil =>
    intro v depth
    exact Function.injective_id
  case cons =>
    intro T fs hT hfs v depth
    exact (hfs v.2 depth).comp (hT v.1 depth)

/-! ### An error the hash sees -/

/-- Every string is empty, and every error has one tag. -/
def oneTag : Memory := ⟨fun _ => [], fun _ => 1#64⟩

mutual

/-- A value of every type that is equal to itself. -/
def Ty.sample : (T : Ty) → Value T
  | .integer kind => BitVec.ofNat kind.width 0
  | .double => 0#64
  | .string => 1#64
  | .error _ => 1#64
  | .pointer _ => 1#64
  | .array element _ => fun _ => element.sample
  | .slice _ => []
  | .struct _ fields => fields.sample

/-- The same for fields. -/
def Fields.sample : (fs : Fields) → Values fs
  | .nil => ()
  | .cons type rest => (type.sample, rest.sample)

end

theorem same_sample :
    (∀ T : Ty, Same oneTag T T.sample T.sample) ∧
      ∀ fs : Fields, SameFields oneTag fs fs.sample fs.sample := by
  refine Ty.induction (P := fun T => Same oneTag T T.sample T.sample)
    (Q := fun fs => SameFields oneTag fs fs.sample fs.sample)
    ?integer ?double ?string ?error ?pointer ?array ?slice ?struct ?nil ?cons
  case integer => exact fun k => same_integer.mpr rfl
  case double => exact same_double.mpr (by decide)
  case string => exact same_string.mpr (by decide)
  case error => exact fun e => same_error.mpr (.inl rfl)
  case pointer => exact fun p => same_pointer.mpr rfl
  case array => exact fun T size hT => same_array.mpr fun _ => hT
  case slice => exact fun T _ => same_slice.mpr .nil
  case struct => exact fun s fs hfs => same_struct.mpr hfs
  case nil => exact trivial
  case cons => exact fun T fs hT hfs => ⟨hT, hfs⟩

/-- Where the hash comes by an error there are values that are equal field by field and that it
tells apart, whatever was hashed before. -/
theorem exists_same_ne (T : Ty) : ∀ depth, T.hashesError depth = true → ∃ a b,
    Same oneTag T a b ∧ ∀ h, emitHashRec oneTag T a h depth ≠ emitHashRec oneTag T b h depth := by
  refine (Ty.induction
    (P := fun T => ∀ depth, T.hashesError depth = true → ∃ a b, Same oneTag T a b ∧
      ∀ h, emitHashRec oneTag T a h depth ≠ emitHashRec oneTag T b h depth)
    (Q := fun fs => ∀ depth, fs.hashesError depth = true → ∃ a b, SameFields oneTag fs a b ∧
      ∀ h, emitHashFields oneTag fs a h depth ≠ emitHashFields oneTag fs b h depth)
    ?integer ?double ?string ?error ?pointer ?array ?slice ?struct ?nil ?cons).1 T
  case integer => exact fun k depth hdepth => by cases hdepth
  case double => exact fun depth hdepth => by cases hdepth
  case string => exact fun depth hdepth => by cases hdepth
  case pointer => exact fun p depth hdepth => by cases hdepth
  case nil => exact fun depth hdepth => by cases hdepth
  case error =>
    intro e depth hdepth
    have hle : depth ≤ 16 := by simpa [Ty.hashesError] using hdepth
    have hsame : Same oneTag (.error e) (1#64 : Addr) (2#64 : Addr) :=
      same_error.mpr (.inr (by decide))
    refine ⟨_, _, hsame, fun h heq => ?_⟩
    rw [emitHashRec_error hle, emitHashRec_error hle] at heq
    exact absurd (hashCombine_injective h heq) (by decide)
  case array =>
    intro T size ih depth hdepth
    rw [Ty.hashesError, Bool.and_eq_true, Bool.and_eq_true, decide_eq_true_eq,
      decide_eq_true_eq] at hdepth
    obtain ⟨⟨hle, hsize⟩, hT⟩ := hdepth
    obtain ⟨n, rfl⟩ := Nat.exists_eq_succ_of_ne_zero hsize.ne'
    obtain ⟨a, b, hab, hne⟩ := ih (depth + 1) hT
    -- The first elements differ, and what follows them is the same.
    let rest : Fin n → Value T := fun _ => T.sample
    have hsame : ∀ i, Same oneTag T (Fin.cons (α := fun _ => Value T) a rest i)
        (Fin.cons (α := fun _ => Value T) b rest i) :=
      Fin.cases hab fun _ => same_sample.1 T
    refine ⟨_, _, same_array.mpr hsame, fun h heq => ?_⟩
    rw [emitHashRec_array hle, emitHashRec_array hle, List.ofFn_succ, List.ofFn_succ] at heq
    simp only [Fin.cons_zero, Fin.cons_succ, List.foldl_cons] at heq
    exact hne h (foldl_injective (fun x => emitHash_injective.1 T x (depth + 1)) _ heq)
  case slice =>
    intro T ih depth hdepth
    rw [Ty.hashesError, Bool.and_eq_true, decide_eq_true_eq] at hdepth
    obtain ⟨a, b, hab, hne⟩ := ih (depth + 1) hdepth.2
    have hsame : Same oneTag (.slice T) [a] [b] := same_slice.mpr (.cons hab .nil)
    refine ⟨_, _, hsame, fun h heq => ?_⟩
    rw [emitHashRec_slice hdepth.1, emitHashRec_slice hdepth.1] at heq
    exact hne h heq
  case struct =>
    intro s fs ih depth hdepth
    rw [Ty.hashesError, Bool.and_eq_true, decide_eq_true_eq] at hdepth
    obtain ⟨a, b, hab, hne⟩ := ih (depth + 1) hdepth.2
    refine ⟨a, b, same_struct.mpr hab, fun h heq => ?_⟩
    rw [emitHashRec_struct hdepth.1, emitHashRec_struct hdepth.1] at heq
    exact hne h heq
  case cons =>
    intro T fs hT hfs depth hdepth
    rw [Fields.hashesError, Bool.or_eq_true] at hdepth
    obtain hfirst | hrest := hdepth
    · obtain ⟨a, b, hab, hne⟩ := hT depth hfirst
      exact ⟨(a, fs.sample), (b, fs.sample), ⟨hab, same_sample.2 fs⟩, fun h heq =>
        hne h (emitHash_injective.2 fs fs.sample depth heq)⟩
    · obtain ⟨a, b, hab, hne⟩ := hfs depth hrest
      exact ⟨(T.sample, a), (T.sample, b), ⟨same_sample.1 T, hab⟩, fun h => hne _⟩

variable {ops : Operators}

/-- Operands that `==` finds equal are equal field by field, when the declared operators compare
so. -/
theorem same_of_binaryEq (hops : ops.FieldByField m) {T : Ty} {l r : Operand T}
    (h : binaryEq m ops l r = some true) : Same m T l.value r.value := by
  rw [binaryEq] at h
  split at h
  case isTrue =>
    cases T
    case error => rw [Same]; exact .inr h
    all_goals simp [getErrorTagValue] at h
  case isFalse =>
    split at h
    case h_1 operator hop => exact hops T operator hop _ _ h
    case h_2 =>
      cases T
      case integer => rw [Same]; exact Option.some.inj h
      case double => rw [Same]; exact Option.some.inj h
      case error => rw [Same]; exact .inl (Option.some.inj h)
      case pointer => rw [Same]; exact Option.some.inj h
      all_goals cases h

/-- The operator of the standard library compares strings as their texts. -/
theorem stringsOperator_fieldByField : (stringsOperator m).FieldByField m := by
  intro T operator hop a b h
  cases T
  case string =>
    obtain rfl := Option.some.inj hop
    rw [Same]
    exact h
  all_goals cases hop

/-! ### Keys of a map -/

/-- A key `K` of a `Map<K, V>` in a program. -/
structure Key (m : Memory) (ops : Operators) (T : Ty) where
  value : Value T

/-- `self.h.keys[b] == key`: an element against the parameter `key`. -/
instance {T : Ty} : BEq (Key m ops T) :=
  ⟨fun a b => binaryEq m ops ⟨.other, a.value⟩ ⟨.variable, b.value⟩ == some true⟩

/-- `hashing::hash(key)`. -/
instance {T : Ty} : Hashable (Key m ops T) := ⟨fun a => ⟨hashOf m T a.value⟩⟩

/-- Equal keys start at one slot of every bucket table, so they walk through one sequence of
probes. -/
theorem home_eq_of_beq {T : Ty} {V : Type} (hops : ops.FieldByField m)
    (hT : T.hashesError 0 = false) {a b : Key m ops T} (hab : (a == b) = true)
    (header : Map.Header (Key m ops T) V) : header.home a = header.home b := by
  have hbinary : binaryEq m ops ⟨.other, a.value⟩ ⟨.variable, b.value⟩ = some true :=
    eq_of_beq hab
  have hhash : hashOf m T a.value = hashOf m T b.value :=
    emitHashRec_eq T 0 hT _ _ (same_of_binaryEq hops hbinary) _
  simp only [Map.Header.home, hash, hhash]

/-! ### The types whose equal values hash equally -/

/-- `hash_of` respects the `==` of a type: whatever the declared operators are, as long as they
compare field by field, and however the operands are written. -/
def HashRespects (T : Ty) : Prop :=
  ∀ m : Memory, ∀ ops : Operators, ops.FieldByField m → ∀ l r : Operand T,
    binaryEq m ops l r = some true → hashOf m T l.value = hashOf m T r.value

/-- Values that are equal field by field are found equal by some program. -/
theorem exists_binaryEq {T : Ty} {a b : Value T} (h : Same m T a b) : ∃ ops : Operators,
    ops.FieldByField m ∧ ∃ l r : Operand T, l.value = a ∧ r.value = b ∧
      binaryEq m ops l r = some true := by
  classical
  -- An operator wherever one may be declared, that answers `true` whenever it may.
  let ops : Operators :=
    { overload := fun T =>
        if T.isBuiltinOperand then none else some fun a b => some (decide (Same m T a b))
      overload_builtin := fun T hT => if_pos hT }
  have hops : ops.FieldByField m := by
    intro U operator hop x y hxy
    simp only [ops] at hop
    split at hop
    · cases hop
    · obtain rfl := Option.some.inj hop
      simpa using hxy
  have hother (v : Value T) : isErrorTagExpr (⟨.other, v⟩ : Operand T) = false := by
    cases T
    all_goals rfl
  refine ⟨ops, hops, ⟨.other, a⟩, ⟨.other, b⟩, rfl, rfl, ?_⟩
  rw [binaryEq, hother, hother]
  by_cases hT : T.isBuiltinOperand
  · simp only [ops, if_pos hT]
    cases T
    case integer => exact congrArg some h
    case double => exact congrArg some h
    case pointer => exact congrArg some h
    all_goals cases hT
  · simp [ops, if_neg hT, h]

/-- A type respects `==` exactly when the hash comes by no error in it. -/
theorem hashRespects_iff (T : Ty) : HashRespects T ↔ T.hashesError 0 = false := by
  constructor
  · intro h
    by_contra hne
    obtain ⟨a, b, hab, hdiffer⟩ := exists_same_ne T 0 (by simpa using hne)
    obtain ⟨ops, hops, l, r, rfl, rfl, hlr⟩ := exists_binaryEq hab
    exact hdiffer _ (h oneTag ops hops l r hlr)
  · intro hT m ops hops l r hlr
    exact emitHashRec_eq T 0 hT _ _ (same_of_binaryEq hops hlr) _

/-- Two error values of one variant, `M::X`, at addresses of their own. -/
def twoErrors : Memory := ⟨fun _ => [0x4d#8, 0x3a#8, 0x3a#8, 0x58#8], fun _ => 64#64⟩

/-- `a == b` holds of two variables with these values, and `hash_of(a) == hash_of(b)` does not. -/
theorem not_hashRespects_error : ¬ ∀ T, HashRespects T := by
  intro h
  have hops : (stringsOperator twoErrors).FieldByField twoErrors := stringsOperator_fieldByField
  have hne : hashOf twoErrors (.error "M") 16#64 = hashOf twoErrors (.error "M") 40#64 :=
    h (.error "M") twoErrors _ hops ⟨.variable, 16#64⟩ ⟨.variable, 40#64⟩ (by decide)
  exact absurd hne (by decide)

end TurfLang.StructuralHash
