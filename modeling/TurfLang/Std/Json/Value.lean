import TurfLang.Std.Strings

/-!
# `lib/std/json/json.tr`: `JsonValue` and `stringify`

A value carries one field per variant, and only the fields of its `kind` are meaningful.
Doubles are a parameter: what the serializer and the parser ask of them is `Doubles`.
-/

namespace TurfLang.Json

open Strings

/-- `JsonType`. -/
inductive JsonType
  | null
  | bool
  | number
  | string
  | array
  | object
  deriving DecidableEq, Repr

/-- `JsonValue`, over a type `D` of doubles. -/
structure JsonValue (D : Type) where
  kind : JsonType
  boolVal : Bool
  numVal : D
  strVal : Bytes
  arrVal : List (JsonValue D)
  objKeys : List Bytes
  objVals : List (JsonValue D)

/-- What the module uses of `double`: the zero of a default field, `number_text`, the
conversion `s to double`, and, to state results, which doubles are finite and when `==`
holds of two of them. -/
structure Doubles (D : Type) where
  zero : D
  numberText : D → Bytes
  toDouble : Bytes → D
  finite : D → Prop
  eq : D → D → Prop

variable {D : Type}

/-! ### Constructors -/

namespace JsonValue

/-- `JsonValue::default()`. -/
def default (ops : Doubles D) : JsonValue D := ⟨.null, false, ops.zero, [], [], [], []⟩

/-- `null_value`. -/
def nullValue (ops : Doubles D) : JsonValue D := { default ops with kind := .null }

/-- `from_bool`. -/
def fromBool (ops : Doubles D) (b : Bool) : JsonValue D :=
  { default ops with kind := .bool, boolVal := b }

/-- `from_number`. -/
def fromNumber (ops : Doubles D) (n : D) : JsonValue D :=
  { default ops with kind := .number, numVal := n }

/-- `from_string`. -/
def fromString (ops : Doubles D) (s : Bytes) : JsonValue D :=
  { default ops with kind := .string, strVal := s }

/-- `new_array`. -/
def newArray (ops : Doubles D) : JsonValue D := { default ops with kind := .array }

/-- `new_object`. -/
def newObject (ops : Doubles D) : JsonValue D := { default ops with kind := .object }

@[simp] theorem newArray_arrVal (ops : Doubles D) : (newArray ops).arrVal = [] := rfl
@[simp] theorem newObject_objKeys (ops : Doubles D) : (newObject ops).objKeys = [] := rfl
@[simp] theorem newObject_objVals (ops : Doubles D) : (newObject ops).objVals = [] := rfl

/-! ### Mutators -/

/-- `push`: append to an array. -/
def push (v item : JsonValue D) : JsonValue D := { v with arrVal := v.arrVal ++ [item] }

/-- The loop of `set`: the last index from `i` on at which `key` occurs, or `idx`. -/
def setIndex (key : Bytes) : ℕ → Option ℕ → List Bytes → Option ℕ
  | _, idx, [] => idx
  | i, idx, k :: ks => setIndex key (i + 1) (if streq k key then some i else idx) ks

/-- `set`: replace the value of `key`, or append it. The `set` of a list panics when its
index is out of range, which here is the result `none`. -/
def set (v : JsonValue D) (key : Bytes) (value : JsonValue D) : Option (JsonValue D) :=
  match setIndex key 0 none v.objKeys with
  | some idx =>
    if idx < v.objVals.length then some { v with objVals := v.objVals.set idx value } else none
  | none => some { v with objKeys := v.objKeys ++ [key], objVals := v.objVals ++ [value] }

theorem setIndex_of_notMem {key : Bytes} {ks : List Bytes} (h : ∀ k ∈ ks, ¬ streq k key) (i : ℕ)
    (idx : Option ℕ) : setIndex key i idx ks = idx := by
  induction ks generalizing i idx with
  | nil => rfl
  | cons k ks ih =>
    rw [setIndex, if_neg (h k (by simp)), ih fun k' hk' => h k' (by simp [hk'])]

/-- A key equal to none of the object's keys is appended. -/
theorem set_of_notMem {v : JsonValue D} {key : Bytes} (h : ∀ k ∈ v.objKeys, ¬ streq k key)
    (value : JsonValue D) :
    v.set key value =
      some { v with objKeys := v.objKeys ++ [key], objVals := v.objVals ++ [value] } := by
  rw [set, setIndex_of_notMem h]

end JsonValue

/-! ### `escape_string` -/

/-- The digits `escape_string` writes a control byte with. -/
def hex : Bytes := bytes "0123456789abcdef"

/-- What `escape_string` appends for one byte. -/
def escapeByte (sb : StringBuilder) (ch : UInt8) : StringBuilder :=
  let c := charToInt ch
  if c = 34 then sb.append (bytes "\\\"")
  else if c = 92 then sb.append (bytes "\\\\")
  else if c = 10 then sb.append (bytes "\\n")
  else if c = 13 then sb.append (bytes "\\r")
  else if c = 9 then sb.append (bytes "\\t")
  else if c = 8 then sb.append (bytes "\\b")
  else if c = 12 then sb.append (bytes "\\f")
  else if 0 ≤ c ∧ c < 32 then
    ((sb.append (bytes "\\u00")).appendChar (byteAtUnchecked hex (c / 16).toNat)).appendChar
      (byteAtUnchecked hex (c % 16).toNat)
  else sb.appendChar ch

/-- `escape_string`. -/
def escapeString (s : Bytes) : Bytes :=
  ((s.take (strlen s)).foldl escapeByte ⟨[]⟩).toString

/-- What `escape_string` writes for one byte. -/
def escaped (ch : UInt8) : Bytes := (escapeByte ⟨[]⟩ ch).text

theorem escapeByte_text (sb : StringBuilder) (ch : UInt8) :
    (escapeByte sb ch).text = sb.text ++ escaped ch := by
  simp only [escaped, escapeByte]
  split_ifs <;> simp [StringBuilder.append]

theorem escapeString_of_noNul {s : Bytes} (h : 0 ∉ s) : escapeString s = s.flatMap escaped := by
  have hfold : ∀ sb : StringBuilder,
      (s.foldl escapeByte sb).text = sb.text ++ s.flatMap escaped := by
    clear h
    induction s with
    | nil => simp
    | cons c s ih => intro sb; simp [ih, escapeByte_text]
  simp [escapeString, strlen_of_noNul h, hfold]

/-- A byte `escape_string` writes in a form `parse_string` reads back: no control byte below
`0x20` other than newline, carriage return and tab. -/
def PlainByte (c : UInt8) : Prop := 32 ≤ c.toNat ∨ c = 10 ∨ c = 13 ∨ c = 9

/-- A string all of whose bytes are plain. -/
def Plain (s : Bytes) : Prop := ∀ c ∈ s, PlainByte c

theorem Plain.noNul {s : Bytes} (h : Plain s) : 0 ∉ s := fun h0 => by
  rcases h 0 h0 with h | h | h | h <;> revert h <;> decide

/-- A byte of a string literal's body that neither ends it nor starts an escape is written
as itself. -/
theorem escaped_of_plain {c : UInt8} (hc : PlainByte c) (h : c ≠ 34 ∧ c ≠ 92 ∧ c ≠ 10 ∧ c ≠ 13 ∧
    c ≠ 9) : escaped c = [c] := by
  obtain ⟨h34, h92, h10, h13, h9⟩ := h
  have h32 : 32 ≤ c.toNat := by
    rcases hc with hc | hc | hc | hc
    · exact hc
    all_goals exact absurd hc ‹_›
  have hlt := c.toNat_lt
  have hint : charToInt c = c.toNat ∨ charToInt c < 0 := by
    rw [charToInt]; split_ifs <;> omega
  have hne : ∀ n : ℕ, n < 128 → c ≠ UInt8.ofNat n → charToInt c ≠ n := fun n hn hcn h =>
    hcn ((charToInt_eq_iff hn).1 h)
  rw [escaped, escapeByte]
  have e34 := hne 34 (by decide) h34
  have e92 := hne 92 (by decide) h92
  rw [if_neg (by exact_mod_cast e34), if_neg (by exact_mod_cast e92), if_neg (by omega),
    if_neg (by omega), if_neg (by omega), if_neg (by omega), if_neg (by omega),
    if_neg (by omega)]
  rfl

/-! ### `stringify` -/

section Stringify

variable (ops : Doubles D)

mutual

/-- `stringify`. A missing element value is the panic of `List.get`, the result `none`. -/
def stringify : JsonValue D → Option Bytes
  | ⟨kind, boolVal, numVal, strVal, arrVal, objKeys, objVals⟩ =>
    match kind, boolVal with
    | .null, _ => some (bytes "null")
    | .bool, true => some (bytes "true")
    | .bool, _ => some (bytes "false")
    | .number, _ => some (ops.numberText numVal)
    | .string, _ => some (bytes "\"" ++ escapeString strVal ++ bytes "\"")
    | .array, _ => stringifyArray 0 ((⟨[]⟩ : StringBuilder).appendChar 91) arrVal
    | .object, _ => stringifyObject 0 ((⟨[]⟩ : StringBuilder).appendChar 123) objKeys objVals

/-- The loop of `stringify_array` from element `i` on, and the closing bracket. -/
def stringifyArray (i : ℕ) (sb : StringBuilder) : List (JsonValue D) → Option Bytes
  | [] => some (sb.appendChar 93).toString
  | v :: vs => do
    let sb := if 0 < i then sb.appendChar 44 else sb
    let t ← stringify v
    stringifyArray (i + 1) (sb.append t) vs

/-- The loop of `stringify_object` from member `i` on, and the closing brace. -/
def stringifyObject (i : ℕ) (sb : StringBuilder) :
    List Bytes → List (JsonValue D) → Option Bytes
  | [], _ => some (sb.appendChar 125).toString
  | _ :: _, [] => none
  | k :: ks, v :: vs => do
    let sb := if 0 < i then sb.appendChar 44 else sb
    let sb := ((sb.appendChar 34).append (escapeString k)).append (bytes "\":")
    let t ← stringify v
    stringifyObject (i + 1) (sb.append t) ks vs

end

end Stringify

end TurfLang.Json
