import TurfLang.Lib.JsonString
import TurfLang.Std.Json.Value

/-!
# What `escape_string` writes is a JSON string

Each byte is written as one character of the grammar, and that character stands for the byte.
-/

namespace TurfLang.Json

open Strings JsonString

/-- A control byte without a short form. -/
def LongForm (c : UInt8) : Prop := c.toNat < 32 ∧ c ≠ 10 ∧ c ≠ 13 ∧ c ≠ 9 ∧ c ≠ 8 ∧ c ≠ 12

instance (c : UInt8) : Decidable (LongForm c) := by
  unfold LongForm; infer_instance

/-- What the text of a byte contributes: its value, as a code unit in the long form. -/
def elementOf (c : UInt8) : Element := if LongForm c then .unit c.toNat else .byte c

/-- The two digits of the long form are the byte's value. -/
theorem escaped_longForm {c : UInt8} (hc : LongForm c) :
    ∃ a b, escaped c = [92, 117, 48, 48, a, b] ∧ codeUnit 48 48 a b = some c.toNat := by
  have hall : ∀ n < 32, LongForm (UInt8.ofNat n) →
      escaped (UInt8.ofNat n) = [92, 117, 48, 48, hex.getD (n / 16) 0, hex.getD (n % 16) 0] ∧
        codeUnit 48 48 (hex.getD (n / 16) 0) (hex.getD (n % 16) 0) = some n := by decide
  have hof : UInt8.ofNat c.toNat = c := UInt8.ofNat_toNat
  obtain ⟨htext, hunit⟩ := hall c.toNat hc.1 (hof.symm ▸ hc)
  rw [hof] at htext
  exact ⟨_, _, htext, hunit⟩

theorem chars_escaped (c : UInt8) : Chars (escaped c) [elementOf c] := by
  by_cases hlong : LongForm c
  · obtain ⟨a, b, htext, hunit⟩ := escaped_longForm hlong
    rw [htext, elementOf, if_pos hlong]
    exact .unit hunit .nil
  rw [elementOf, if_neg hlong]
  by_cases hself : 32 ≤ c.toNat ∧ c ≠ 34 ∧ c ≠ 92
  · obtain ⟨h32, h34, h92⟩ := hself
    have hne : ∀ d : UInt8, d.toNat < 32 → c ≠ d := fun d hd h => by subst h; omega
    rw [escaped_of_plain (.inl h32) ⟨h34, h92, hne 10 (by decide), hne 13 (by decide),
      hne 9 (by decide)⟩]
    exact .unescaped ⟨h32, h34, h92⟩ .nil
  · -- what is left has a short form
    have hshort : c = 34 ∨ c = 92 ∨ c = 10 ∨ c = 13 ∨ c = 9 ∨ c = 8 ∨ c = 12 := by
      unfold LongForm at hlong
      rw [← not_lt] at hself
      tauto
    rcases hshort with rfl | rfl | rfl | rfl | rfl | rfl | rfl
    all_goals exact .letter (by decide) .nil

/-- Only the long form, which is no surrogate, stands for more than the byte written. -/
theorem encode_elementOf (s : Bytes) : encode (s.map elementOf) = some s := by
  induction s with
  | nil => rfl
  | cons c s ih =>
    rw [List.map_cons, elementOf]
    by_cases hlong : LongForm c
    · have hlt : c.toNat < 0x80 := by have := hlong.1; omega
      rw [if_pos hlong, encode_unit_of_lt hlt, ih, Option.map_some, UInt8.ofNat_toNat]
    · rw [if_neg hlong, encode, ih, Option.map_some]

theorem decodes_escapeString {s : Bytes} (h : 0 ∉ s) :
    Decodes (bytes "\"" ++ escapeString s ++ bytes "\"") s :=
  ⟨s.flatMap escaped, s.map elementOf, .flatMap fun c _ => chars_escaped c,
    by rw [escapeString_of_noNul h]; rfl, encode_elementOf s⟩

/-- `escape_string` between quotation marks is a string of RFC 8259, and it stands for the
string escaped and for no other. -/
theorem escapeString_valid (s : Bytes) (h : 0 ∉ s) :
    IsString (bytes "\"" ++ escapeString s ++ bytes "\"") ∧
      ∀ s', Decodes (bytes "\"" ++ escapeString s ++ bytes "\"") s' ↔ s' = s := by
  refine ⟨(decodes_escapeString h).isString, fun s' => ⟨fun h' => ?_, ?_⟩⟩
  · exact h'.unique (decodes_escapeString h)
  · rintro rfl
    exact decodes_escapeString h

/-- A quotation mark, a control byte with a long form and a byte of a character in UTF-8. -/
theorem escapeString_valid_sample :
    IsString (bytes "\"" ++ escapeString [34, 1, 0xC3, 0xA9] ++ bytes "\"") ∧
      ∀ s', Decodes (bytes "\"" ++ escapeString [34, 1, 0xC3, 0xA9] ++ bytes "\"") s' ↔
        s' = [34, 1, 0xC3, 0xA9] :=
  escapeString_valid [34, 1, 0xC3, 0xA9] (by decide)

end TurfLang.Json
