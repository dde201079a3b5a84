import TurfLang.Std.Json.Parse

/-!
# `parse` inverts `stringify`

A parser that sees the text of a value, followed by anything that may follow one, reads the
value back and stops right after its text. The text decides the fuel: three units a byte.
-/

namespace TurfLang.Json

open Strings

/-! ### What a parser sees -/

/-- The text from the parser's position on is `t`. -/
structure Sees (p : Parser) (t : Bytes) : Prop where
  len_eq : p.len = p.s.length
  drop_eq : p.s.drop p.pos = t

namespace Sees

variable {p : Parser} {t r : Bytes} {c : UInt8}

theorem advance (h : Sees p (t ++ r)) : Sees (p.advance t.length) r :=
  ⟨h.len_eq, drop_add_of_drop h.drop_eq⟩

theorem tail (h : Sees p (c :: r)) : Sees (p.advance 1) r :=
  ⟨h.len_eq, drop_cons_of_drop h.drop_eq⟩

theorem pos_lt (h : Sees p (c :: r)) : p.pos < p.len :=
  h.len_eq ▸ lt_length_of_drop h.drop_eq

theorem byte_eq (h : Sees p (c :: r)) : byteAtUnchecked p.s p.pos = c :=
  byteAtUnchecked_of_drop h.drop_eq

theorem at_eq (h : Sees p (c :: r)) : p.at' = charToInt c := by
  rw [Parser.at', h.byte_eq]

theorem peek_eq (h : Sees p (c :: r)) : p.peek = charToInt c := by
  rw [Parser.peek, if_neg (by have := h.pos_lt; omega), h.at_eq]

/-- No white space is skipped before another byte. -/
theorem skipWs_eq (h : Sees p (c :: r)) (hc : Parser.isWs c = false) : p.skipWs = p := by
  have : Loop.scan (fun i => Parser.isWs (byteAtUnchecked p.s i)) p.len p.pos = p.pos :=
    Loop.scan_stop fun _ => by rw [h.byte_eq, hc]
  rw [Parser.skipWs, this]

/-- Copying the text seen copies it. -/
theorem copyInto_eq (h : Sees p (t ++ r)) (sb : StringBuilder) :
    p.copyInto sb p.pos (p.pos + t.length) = ⟨sb.text ++ t⟩ := by
  have hmap : (List.range' p.pos t.length).map (byteAtUnchecked p.s) = t := by
    refine List.ext_getElem (by simp) fun i hi _ => ?_
    have hlt : i < t.length := by simpa using hi
    have hget : p.s[p.pos + i]? = some t[i] := by
      calc p.s[p.pos + i]? = (p.s.drop p.pos)[i]? := by simp
        _ = some t[i] := by rw [h.drop_eq, List.getElem?_append_left hlt, List.getElem?_eq_getElem]
    simp [byteAtUnchecked, List.getD_eq_getElem?_getD, hget]
  rw [Parser.copyInto, Nat.add_sub_cancel_left, hmap]

end Sees

/-! ### Literals and numbers -/

theorem parseLiteral_of_sees {α : Type} {p : Parser} {lit r : Bytes} (h : Sees p (lit ++ r))
    (value : α) : p.parseLiteral lit value = .ok (value, p.advance lit.length) := by
  induction lit generalizing p with
  | nil => rfl
  | cons c lit ih =>
    have hlt := h.pos_lt
    have hat := h.at_eq
    have hgo : ¬ (p.pos ≥ p.len ∨ p.at' ≠ charToInt c) := by
      rintro (hge | hne)
      · omega
      · exact hne hat
    rw [Parser.parseLiteral, if_neg hgo, ih h.tail, Parser.advance_advance, List.length_cons,
      Nat.add_comm]

theorem parseNumber_of_sees {D : Type} (ops : Doubles D) {p : Parser} {t r : Bytes}
    (h : Sees p (t ++ r)) (ht : DecimalText t) (hr : EndsNumber r) :
    p.parseNumber ops = .ok (.fromNumber ops (ops.toDouble t), p.advance t.length) := by
  obtain ⟨i₁, i₂, i₃, h₁, h₂, h₃, hlt, hexp⟩ := positions_of_decimalText h.drop_eq ht hr
  have hend : (if AtExponent p.s p.len i₃ then
      skipDigits p.s p.len (skipOneOf p.s p.len 43 45 (i₃ + 1)) else i₃) = p.pos + t.length := by
    rw [h.len_eq]
    rcases hexp with ⟨hno, hend⟩ | ⟨hat, start, hstart, -, hend⟩
    · rw [if_neg hno, hend]
    · rw [if_pos hat, hstart, hend]
  rw [← h.len_eq] at h₁ h₂ h₃
  simp only [Parser.parseNumber, h₁, h₂, h₃, hend, h.copyInto_eq,
    if_neg (not_not.2 (Or.inl hlt)), StringBuilder.toString_eq, List.nil_append,
    parseDouble_of_decimalText _ ht]
  rfl

/-! ### Strings -/

/-- A plain byte is written as an escape that is read back as it, or as itself. -/
theorem escaped_cases {c : UInt8} (hc : PlainByte c) :
    (∃ d, escaped c = [92, d] ∧ d ≠ 0 ∧ Parser.unescape d = c) ∨
      (escaped c = [c] ∧ c ≠ 34 ∧ c ≠ 92) := by
  by_cases h : c ≠ 34 ∧ c ≠ 92 ∧ c ≠ 10 ∧ c ≠ 13 ∧ c ≠ 9
  · exact .inr ⟨escaped_of_plain hc h, h.1, h.2.1⟩
  · have hmem : c = 34 ∨ c = 92 ∨ c = 10 ∨ c = 13 ∨ c = 9 := by tauto
    rcases hmem with rfl | rfl | rfl | rfl | rfl
    · exact .inl ⟨34, by decide, by decide, by decide⟩
    · exact .inl ⟨92, by decide, by decide, by decide⟩
    · exact .inl ⟨110, by decide, by decide, by decide⟩
    · exact .inl ⟨114, by decide, by decide, by decide⟩
    · exact .inl ⟨116, by decide, by decide, by decide⟩

/-- `parse_string`'s loop, at an escaped string and its closing quote, with the run of plain
bytes since `seg` still to be copied. -/
theorem stringLoop_of_sees {p : Parser} {s r : Bytes} (hs : Plain s)
    (h : Sees p (s.flatMap escaped ++ 34 :: r)) (sb : StringBuilder) {seg : ℕ}
    (hseg : seg ≤ p.pos) :
    p.stringLoop sb seg = .ok ((p.copyInto sb seg p.pos).text ++ s,
      p.advance ((s.flatMap escaped).length + 1)) := by
  induction s generalizing p sb seg with
  | nil =>
    rw [Parser.stringLoop, dif_pos h.pos_lt, h.at_eq, if_pos (by decide)]
    simp
  | cons c s ih =>
    have hs' : Plain s := fun c hc => hs c (by simp [hc])
    rcases escaped_cases (hs c (by simp)) with ⟨d, hd, -, hun⟩ | ⟨hc, h34, h92⟩
    · have h : Sees p (92 :: d :: (s.flatMap escaped ++ 34 :: r)) := by simpa [hd] using h
      have hlt := h.tail.pos_lt
      have hbyte : byteAtUnchecked p.s (p.pos + 1) = d := h.tail.byte_eq
      have hsees : Sees (p.advance 2) (s.flatMap escaped ++ 34 :: r) := h.advance (t := [92, d])
      simp only [Parser.advance_pos, Parser.advance_len] at hlt
      rw [Parser.stringLoop, dif_pos h.pos_lt, h.at_eq, if_neg (by decide), if_pos (by decide),
        if_neg (by omega), hbyte, hun, ← Parser.advance_pos, ih hs' hsees _ le_rfl]
      simp only [Parser.copyInto_self, StringBuilder.appendChar_text, List.append_assoc,
        List.singleton_append, Parser.advance_advance, List.flatMap_cons, hd,
        List.length_append, List.length_cons, List.length_nil]
      congr 3
    · have h : Sees p (c :: (s.flatMap escaped ++ 34 :: r)) := by simpa [hc] using h
      have e34 : charToInt c ≠ (34 : ℕ) := fun e => h34 ((charToInt_eq_iff (by decide)).1 e)
      have e92 : charToInt c ≠ (92 : ℕ) := fun e => h92 ((charToInt_eq_iff (by decide)).1 e)
      rw [Parser.stringLoop, dif_pos h.pos_lt, h.at_eq, if_neg (by exact_mod_cast e34),
        if_neg (by exact_mod_cast e92), ih hs' h.tail sb (by simp; omega)]
      simp [Parser.advance_advance, Parser.copyInto_succ p sb hseg, h.byte_eq, hc, Nat.add_comm]

/-- `parse_string` reads an escaped string back. -/
theorem parseString_of_sees {p : Parser} {s r : Bytes} (hs : Plain s)
    (h : Sees p (34 :: (s.flatMap escaped ++ 34 :: r))) :
    p.parseString = .ok (s, p.advance ((s.flatMap escaped).length + 2)) := by
  rw [Parser.parseString, ← Parser.advance_pos, stringLoop_of_sees hs h.tail _ le_rfl]
  simp only [Parser.copyInto_self, List.nil_append, Parser.advance_advance]
  congr 3
  omega

theorem noNul_flatMap_escaped {s : Bytes} (hs : Plain s) : 0 ∉ s.flatMap escaped := by
  simp only [List.mem_flatMap, not_exists, not_and]
  intro c hc
  rcases escaped_cases (hs c hc) with ⟨d, hd, hne, -⟩ | ⟨he, -, -⟩
  · simp [hd, hne.symm]
  · have : c ≠ 0 := fun h0 => hs.noNul (h0 ▸ hc)
    simp [he, this.symm]

/-! ### Trees and equality -/

variable {D : Type}

/-- A tree `stringify` writes faithfully: its numbers are finite, its strings plain, the keys of
each object distinct, one to a value. -/
inductive Tree (ops : Doubles D) : JsonValue D → Prop
  | null {v : JsonValue D} (hk : v.kind = .null) : Tree ops v
  | bool {v : JsonValue D} (hk : v.kind = .bool) : Tree ops v
  | number {v : JsonValue D} (hk : v.kind = .number) (hn : ops.finite v.numVal) : Tree ops v
  | string {v : JsonValue D} (hk : v.kind = .string) (hs : Plain v.strVal) : Tree ops v
  | array {v : JsonValue D} (hk : v.kind = .array) (hvs : ∀ w ∈ v.arrVal, Tree ops w) : Tree ops v
  | object {v : JsonValue D} (hk : v.kind = .object) (hkeys : v.objKeys.Nodup)
      (hplain : ∀ k ∈ v.objKeys, Plain k) (hlen : v.objKeys.length = v.objVals.length)
      (hvs : ∀ w ∈ v.objVals, Tree ops w) : Tree ops v

/-- Equality of two values: the same kind, and equal in the fields this kind gives meaning to. -/
inductive Same (ops : Doubles D) : JsonValue D → JsonValue D → Prop
  | null {v w : JsonValue D} (hv : v.kind = .null) (hw : w.kind = .null) : Same ops v w
  | bool {v w : JsonValue D} (hv : v.kind = .bool) (hw : w.kind = .bool)
      (h : v.boolVal = w.boolVal) : Same ops v w
  | number {v w : JsonValue D} (hv : v.kind = .number) (hw : w.kind = .number)
      (h : ops.eq v.numVal w.numVal) : Same ops v w
  | string {v w : JsonValue D} (hv : v.kind = .string) (hw : w.kind = .string)
      (h : v.strVal = w.strVal) : Same ops v w
  | array {v w : JsonValue D} (hv : v.kind = .array) (hw : w.kind = .array)
      (h : List.Forall₂ (Same ops) v.arrVal w.arrVal) : Same ops v w
  | object {v w : JsonValue D} (hv : v.kind = .object) (hw : w.kind = .object)
      (hkeys : v.objKeys = w.objKeys) (h : List.Forall₂ (Same ops) v.objVals w.objVals) :
      Same ops v w

/-! ### Values -/

/-- What may follow a value: nothing, a separator or a closing bracket. -/
def Follows (r : Bytes) : Prop := ∀ c ∈ r.head?, c = 44 ∨ c = 93 ∨ c = 125

theorem Follows.endsNumber {r : Bytes} (h : Follows r) : EndsNumber r := fun c hc => by
  rcases h c hc with rfl | rfl | rfl <;> decide

/-- The first byte of a value's text: it is neither white space nor a closing bracket. -/
def StartsValue (t : Bytes) : Prop :=
  ∃ c r, t = c :: r ∧ Parser.isWs c = false ∧ c ≠ 93

/-- `t` is a text of `v`: the serializer can copy it, and the parser reads `v` back from it. -/
structure TextOf (ops : Doubles D) (v : JsonValue D) (t : Bytes) : Prop where
  noNul : 0 ∉ t
  starts : StartsValue t
  parses : ∀ {p : Parser} {r : Bytes} {fuel : ℕ}, Sees p (t ++ r) → Follows r →
    3 * t.length ≤ fuel →
      ∃ w, parseValue ops fuel p = .ok (w, p.advance t.length) ∧ Same ops w v

variable {ops : Doubles D} {v : JsonValue D}

/-- The fuel a text of at least one byte brings is enough for one call. -/
theorem exists_fuel_succ {t : Bytes} {fuel : ℕ} (ht : StartsValue t) (h : 3 * t.length ≤ fuel) :
    ∃ f, fuel = f + 1 ∧ 3 * t.length ≤ f + 1 := by
  obtain ⟨c, r, rfl, -⟩ := ht
  simp only [List.length_cons] at h ⊢
  exact ⟨fuel - 1, by omega, by omega⟩

/-! ### Scalars -/

theorem textOf_null (hk : v.kind = .null) : TextOf ops v (bytes "null") where
  noNul := by decide
  starts := ⟨_, _, rfl, by decide, by decide⟩
  parses {p r fuel} h _ hf := by
    obtain ⟨fuel, rfl, -⟩ := exists_fuel_succ ⟨_, _, rfl, by decide, by decide⟩ hf
    have h' : Sees p (110 :: (bytes "ull" ++ r)) := h
    refine ⟨.nullValue ops, ?_, .null rfl hk⟩
    rw [parseValue, h'.skipWs_eq (by decide), h'.peek_eq]
    exact parseLiteral_of_sees h _

theorem textOf_true (hk : v.kind = .bool) (hb : v.boolVal = true) :
    TextOf ops v (bytes "true") where
  noNul := by decide
  starts := ⟨_, _, rfl, by decide, by decide⟩
  parses {p r fuel} h _ hf := by
    obtain ⟨fuel, rfl, -⟩ := exists_fuel_succ ⟨_, _, rfl, by decide, by decide⟩ hf
    have h' : Sees p (116 :: (bytes "rue" ++ r)) := h
    refine ⟨.fromBool ops true, ?_, .bool rfl hk hb.symm⟩
    rw [parseValue, h'.skipWs_eq (by decide), h'.peek_eq]
    exact parseLiteral_of_sees h _

theorem textOf_false (hk : v.kind = .bool) (hb : v.boolVal = false) :
    TextOf ops v (bytes "false") where
  noNul := by decide
  starts := ⟨_, _, rfl, by decide, by decide⟩
  parses {p r fuel} h _ hf := by
    obtain ⟨fuel, rfl, -⟩ := exists_fuel_succ ⟨_, _, rfl, by decide, by decide⟩ hf
    have h' : Sees p (102 :: (bytes "alse" ++ r)) := h
    refine ⟨.fromBool ops false, ?_, .bool rfl hk hb.symm⟩
    rw [parseValue, h'.skipWs_eq (by decide), h'.peek_eq]
    exact parseLiteral_of_sees h _

/-- A number's text starts with a minus sign or a digit. -/
theorem head_of_decimalText {t : Bytes} (h : DecimalText t) :
    ∃ c r, t = c :: r ∧ (charToInt c = 45 ∨ 48 ≤ charToInt c ∧ charToInt c ≤ 57) := by
  obtain @⟨sign, ds, frac, exp, hsign, hds, hne, -, -⟩ := h
  rcases hsign with rfl | rfl
  · obtain ⟨c, ds, rfl⟩ := List.exists_cons_of_ne_nil hne
    have hc : isDigit c = true := hds c (by simp)
    exact ⟨c, _, rfl, .inr (by simpa [isDigit] using hc)⟩
  · exact ⟨45, _, rfl, .inl (by decide)⟩

theorem textOf_number (hk : v.kind = .number) (ht : DecimalText (ops.numberText v.numVal))
    (hconv : ops.eq (ops.toDouble (ops.numberText v.numVal)) v.numVal) :
    TextOf ops v (ops.numberText v.numVal) := by
  obtain ⟨c, r₀, hcons, hc⟩ := head_of_decimalText ht
  have hws : Parser.isWs c = false := by
    rw [Parser.isWs, decide_eq_false_iff_not]
    omega
  have hstarts : StartsValue (ops.numberText v.numVal) :=
    ⟨c, r₀, hcons, hws, fun h93 => by rw [h93] at hc; revert hc; decide⟩
  refine ⟨ht.noNul, hstarts, fun {p r fuel} h hr hf => ?_⟩
  obtain ⟨fuel, rfl, -⟩ := exists_fuel_succ hstarts hf
  have h' : Sees p (c :: (r₀ ++ r)) := by simpa [hcons] using h
  refine ⟨.fromNumber ops (ops.toDouble (ops.numberText v.numVal)), ?_, .number rfl hk hconv⟩
  rw [parseValue, h'.skipWs_eq hws, h'.peek_eq, if_neg (by omega), if_neg (by omega),
    if_neg (by omega), if_neg (by omega), if_neg (by omega), if_neg (by omega),
    if_neg (by omega), if_pos (by tauto)]
  exact parseNumber_of_sees ops h ht hr.endsNumber

theorem textOf_string (hk : v.kind = .string) (hs : Plain v.strVal) :
    TextOf ops v (bytes "\"" ++ escapeString v.strVal ++ bytes "\"") := by
  have htext : bytes "\"" ++ escapeString v.strVal ++ bytes "\"" =
      34 :: (v.strVal.flatMap escaped ++ [34]) := by
    rw [escapeString_of_noNul hs.noNul]; rfl
  have hstarts : StartsValue (34 :: (v.strVal.flatMap escaped ++ [34])) :=
    ⟨_, _, rfl, by decide, by decide⟩
  rw [htext]
  refine ⟨by simp [noNul_flatMap_escaped hs], hstarts, fun {p r fuel} h _ hf => ?_⟩
  obtain ⟨fuel, rfl, -⟩ := exists_fuel_succ hstarts hf
  have h' : Sees p (34 :: (v.strVal.flatMap escaped ++ 34 :: r)) := by simpa using h
  refine ⟨.fromString ops v.strVal, ?_, .string rfl hk rfl⟩
  rw [parseValue, h'.skipWs_eq (by decide), h'.peek_eq]
  simp [charToInt, parseString_of_sees hs h', bind, Except.bind, pure, Except.pure]

/-! ### Arrays -/

/-- `t` is the text of the elements `vs` and the closing bracket. -/
structure ItemsOf (ops : Doubles D) (vs : List (JsonValue D)) (t : Bytes) : Prop where
  noNul : 0 ∉ t
  starts : StartsValue t
  written : ∀ (i : ℕ) (sb : StringBuilder), stringifyArray ops i sb vs =
    some (sb.text ++ ((if 0 < i then [44] else []) ++ t))
  parses : ∀ {p : Parser} {r : Bytes} {fuel : ℕ} (arr : JsonValue D), Sees p (t ++ r) →
    3 * t.length + 1 ≤ fuel →
      ∃ ws, parseItems ops fuel p arr =
          .ok ({ arr with arrVal := arr.arrVal ++ ws }, p.advance t.length) ∧
        List.Forall₂ (Same ops) ws vs

theorem itemsOf_singleton {t : Bytes} (hw : stringify ops v = some t) (ht : TextOf ops v t) :
    ItemsOf ops [v] (t ++ [93]) where
  noNul := by simp [ht.noNul]
  starts := by
    obtain ⟨c, r, rfl, hc⟩ := ht.starts
    exact ⟨c, r ++ [93], rfl, hc⟩
  written i sb := by
    simp only [stringifyArray, hw, Option.bind_eq_bind, Option.bind_some]
    split_ifs <;> simp [StringBuilder.append_text _ ht.noNul]
  parses {p r fuel} arr h hf := by
    obtain ⟨fuel, rfl⟩ : ∃ f, fuel = f + 1 := ⟨fuel - 1, by omega⟩
    simp only [List.length_append, List.length_singleton] at hf
    have h₁ : Sees p (t ++ 93 :: r) := by simpa using h
    obtain ⟨w, hparse, hsame⟩ := ht.parses h₁ (by simp [Follows]) (by omega : _ ≤ fuel)
    refine ⟨[w], ?_, .cons hsame .nil⟩
    simp [parseItems, hparse, bind, Except.bind, h₁.advance.skipWs_eq (by decide),
      h₁.advance.peek_eq, charToInt, JsonValue.push, Parser.advance_advance, pure, Except.pure]

theorem itemsOf_cons {vs : List (JsonValue D)} {t t' : Bytes} (hw : stringify ops v = some t)
    (ht : TextOf ops v t) (hvs : ItemsOf ops vs t') :
    ItemsOf ops (v :: vs) (t ++ (44 :: t')) where
  noNul := by simp [ht.noNul, hvs.noNul]
  starts := by
    obtain ⟨c, r, rfl, hc⟩ := ht.starts
    exact ⟨c, _, rfl, hc⟩
  written i sb := by
    simp only [stringifyArray, hw, Option.bind_eq_bind, Option.bind_some, hvs.written]
    split_ifs <;> simp_all [StringBuilder.append_text _ ht.noNul]
  parses {p r fuel} arr h hf := by
    obtain ⟨fuel, rfl⟩ : ∃ f, fuel = f + 1 := ⟨fuel - 1, by omega⟩
    simp only [List.length_append, List.length_cons] at hf
    have h₁ : Sees p (t ++ 44 :: (t' ++ r)) := by simpa using h
    have h₂ : Sees ((p.advance t.length).advance 1) (t' ++ r) := h₁.advance.tail
    obtain ⟨w, hparse, hsame⟩ := ht.parses h₁ (by simp [Follows]) (by omega : _ ≤ fuel)
    obtain ⟨ws, hitems, hsames⟩ := hvs.parses (arr.push w) h₂ (by omega : _ ≤ fuel)
    obtain ⟨c, t'', rfl, hws, -⟩ := hvs.starts
    refine ⟨w :: ws, ?_, .cons hsame hsames⟩
    simp only [parseItems, hparse, bind, Except.bind, h₁.advance.skipWs_eq (by decide),
      h₁.advance.peek_eq, h₂.skipWs_eq hws, hitems]
    simp [charToInt, JsonValue.push, Parser.advance_advance, Nat.add_assoc, Nat.add_comm]

theorem exists_itemsOf {vs : List (JsonValue D)}
    (h : ∀ w ∈ v :: vs, ∃ t, stringify ops w = some t ∧ TextOf ops w t) :
    ∃ t, ItemsOf ops (v :: vs) t := by
  induction vs generalizing v with
  | nil =>
    obtain ⟨t, hw, ht⟩ := h v (by simp)
    exact ⟨_, itemsOf_singleton hw ht⟩
  | cons w vs ih =>
    obtain ⟨t, hw, ht⟩ := h v (by simp)
    obtain ⟨t', ht'⟩ := ih fun u hu => h u (List.mem_cons_of_mem _ hu)
    exact ⟨_, itemsOf_cons hw ht ht'⟩

theorem stringify_array (hk : v.kind = .array) :
    stringify ops v = stringifyArray ops 0 ⟨[91]⟩ v.arrVal := by
  obtain ⟨kind, b, n, s, arr, keys, vals⟩ := v
  subst hk
  cases b <;> simp [stringify, StringBuilder.appendChar]

theorem exists_textOf_array (hk : v.kind = .array)
    (h : ∀ w ∈ v.arrVal, ∃ t, stringify ops w = some t ∧ TextOf ops w t) :
    ∃ t, stringify ops v = some t ∧ TextOf ops v t := by
  rw [stringify_array hk]
  cases harr : v.arrVal with
  | nil =>
    have hstarts : StartsValue [91, 93] := ⟨_, _, rfl, by decide, by decide⟩
    refine ⟨[91, 93], by simp [stringifyArray], by decide, hstarts, fun {p r fuel} hp _ hf => ?_⟩
    obtain ⟨fuel, rfl⟩ : ∃ f, fuel = f + 2 := ⟨fuel - 2, by simp at hf; omega⟩
    have h₀ : Sees p (91 :: 93 :: r) := hp
    refine ⟨.newArray ops, ?_, .array rfl hk (by rw [harr]; exact .nil)⟩
    simp [parseValue, parseArray, h₀.skipWs_eq (by decide), h₀.peek_eq, charToInt,
      h₀.tail.skipWs_eq (by decide), h₀.tail.peek_eq, Parser.advance_advance]
  | cons w ws =>
    obtain ⟨t, ht⟩ := exists_itemsOf (harr ▸ h)
    have hstarts : StartsValue (91 :: t) := ⟨_, _, rfl, by decide, by decide⟩
    refine ⟨91 :: t, by simp [ht.written], by simp [ht.noNul], hstarts,
      fun {p r fuel} hp _ hf => ?_⟩
    simp only [List.length_cons] at hf
    obtain ⟨fuel, rfl⟩ : ∃ f, fuel = f + 2 := ⟨fuel - 2, by omega⟩
    have h₀ : Sees p (91 :: (t ++ r)) := hp
    obtain ⟨ws', hitems, hsame⟩ :=
      ht.parses (.newArray ops) h₀.tail (by omega : _ ≤ fuel)
    obtain ⟨c, t, rfl, hws, hc⟩ := ht.starts
    have hpeek : (p.advance 1).peek ≠ 93 := fun h93 =>
      hc ((charToInt_eq_iff (n := 93) (by decide)).1 (h₀.tail.peek_eq ▸ h93))
    refine ⟨{ JsonValue.newArray ops with arrVal := ws' }, ?_, .array rfl hk (harr ▸ hsame)⟩
    simp [parseValue, parseArray, h₀.skipWs_eq (by decide), h₀.peek_eq, charToInt,
      h₀.tail.skipWs_eq hws, hpeek, hitems, Parser.advance_advance, Nat.add_comm]

/-! ### Objects -/

/-- `t` is the text of the members with keys `ks` and values `vs` and the closing brace. -/
structure MembersOf (ops : Doubles D) (ks : List Bytes) (vs : List (JsonValue D)) (t : Bytes) :
    Prop where
  noNul : 0 ∉ t
  starts : ∃ t', t = 34 :: t'
  written : ∀ (i : ℕ) (sb : StringBuilder), stringifyObject ops i sb ks vs =
    some (sb.text ++ ((if 0 < i then [44] else []) ++ t))
  parses : ∀ {p : Parser} {r : Bytes} {fuel : ℕ} (obj : JsonValue D),
    (obj.objKeys ++ ks).Nodup → (∀ k ∈ obj.objKeys ++ ks, Plain k) → Sees p (t ++ r) →
    3 * t.length + 1 ≤ fuel →
      ∃ ws, parseMembers ops fuel p obj =
          .ok ({ obj with objKeys := obj.objKeys ++ ks, objVals := obj.objVals ++ ws },
            p.advance t.length) ∧
        List.Forall₂ (Same ops) ws vs

/-- The text of a member's key and the colon after it. -/
def keyText (k : Bytes) : Bytes := 34 :: (k.flatMap escaped ++ [34, 58])

theorem length_keyText (k : Bytes) : (keyText k).length = (k.flatMap escaped).length + 3 := by
  simp [keyText]

/-- What `stringify_object` appends for a key. -/
theorem append_key (sb : StringBuilder) {k : Bytes} (hk : Plain k) :
    (((sb.appendChar 34).append (escapeString k)).append (bytes "\":")).text =
      sb.text ++ keyText k := by
  rw [escapeString_of_noNul hk.noNul, StringBuilder.append_text _ (by decide),
    StringBuilder.append_text _ (noNul_flatMap_escaped hk)]
  simp [keyText, bytes]

theorem noNul_keyText {k : Bytes} (hk : Plain k) : 0 ∉ keyText k := by
  simp [keyText, noNul_flatMap_escaped hk]

/-- One turn of `parse_object`'s loop reads one member, and the byte after it decides whether
there is another turn. -/
theorem parseMembers_of_sees {p : Parser} {r k t : Bytes} {c : UInt8} {fuel : ℕ}
    {obj : JsonValue D} (hk : Plain k) (hset : ∀ k' ∈ obj.objKeys, ¬ streq k' k)
    (ht : TextOf ops v t) (h : Sees p (keyText k ++ (t ++ c :: r))) (hc : c = 44 ∨ c = 125)
    (hf : 3 * t.length ≤ fuel) :
    ∃ w, Same ops w v ∧ parseMembers ops (fuel + 1) p obj =
      if c = 44 then
        parseMembers ops fuel (p.advance ((keyText k).length + t.length + 1))
          { obj with objKeys := obj.objKeys ++ [k], objVals := obj.objVals ++ [w] }
      else .ok ({ obj with objKeys := obj.objKeys ++ [k], objVals := obj.objVals ++ [w] },
        p.advance ((keyText k).length + t.length + 1)) := by
  have h₀ : Sees p (34 :: (k.flatMap escaped ++ 34 :: (58 :: (t ++ c :: r)))) := by
    simpa [keyText] using h
  have h₁ : Sees (p.advance ((k.flatMap escaped).length + 2)) (58 :: (t ++ c :: r)) := by
    have : Sees p ((34 :: (k.flatMap escaped ++ [34])) ++ 58 :: (t ++ c :: r)) := by
      simpa using h₀
    simpa using this.advance
  have h₂ := h₁.tail
  have hws : Parser.isWs c = false := by rcases hc with rfl | rfl <;> decide
  obtain ⟨w, hparse, hsame⟩ := ht.parses h₂ (fun d hd => by simp at hd; subst hd; tauto) hf
  have hend : (((p.advance ((k.flatMap escaped).length + 2)).advance 1).advance t.length).advance 1
      = p.advance ((keyText k).length + t.length + 1) := by
    simp only [Parser.advance_advance, length_keyText]
  obtain ⟨d, t', rfl, hd, -⟩ := ht.starts
  refine ⟨w, hsame, ?_⟩
  rw [parseMembers, h₀.skipWs_eq (by decide), h₀.peek_eq, parseString_of_sees hk h₀]
  simp only [bind, Except.bind, h₁.skipWs_eq (by decide), h₁.peek_eq, h₂.skipWs_eq hd, hparse,
    JsonValue.set_of_notMem hset, h₂.advance.skipWs_eq hws, h₂.advance.peek_eq, hend]
  rcases hc with rfl | rfl <;> simp [charToInt, pure, Except.pure]

/-- Distinct plain keys are told apart by `==`. -/
theorem not_streq_of_nodup {ks ks' : List Bytes} {k : Bytes} (h : (ks ++ k :: ks').Nodup)
    (hplain : ∀ k' ∈ ks ++ k :: ks', Plain k') : ∀ k' ∈ ks, ¬ streq k' k := by
  intro k' hk' heq
  have := (streq_iff (hplain k' (by simp [hk'])).noNul (hplain k (by simp)).noNul).1 heq
  subst this
  exact (List.nodup_append.1 h).2.2 k' hk' k' (by simp) rfl

theorem membersOf_singleton {k t : Bytes} (hk : Plain k) (hw : stringify ops v = some t)
    (ht : TextOf ops v t) : MembersOf ops [k] [v] (keyText k ++ (t ++ [125])) where
  noNul := by simp [ht.noNul, noNul_keyText hk]
  starts := ⟨_, rfl⟩
  written i sb := by
    simp only [stringifyObject, hw, Option.bind_eq_bind, Option.bind_some,
      StringBuilder.toString_eq, StringBuilder.appendChar_text,
      StringBuilder.append_text _ ht.noNul, append_key _ hk]
    split_ifs <;> simp
  parses {p r fuel} obj hnodup hplain h hf := by
    obtain ⟨fuel, rfl⟩ : ∃ f, fuel = f + 1 := ⟨fuel - 1, by omega⟩
    simp only [List.length_append, List.length_singleton] at hf
    obtain ⟨w, hsame, hparse⟩ := parseMembers_of_sees hk (not_streq_of_nodup hnodup hplain) ht
      (by simpa using h) (.inr rfl) (by omega : _ ≤ fuel)
    refine ⟨[w], ?_, .cons hsame .nil⟩
    rw [hparse, if_neg (by decide)]
    simp [Nat.add_assoc]

theorem membersOf_cons {k t t' : Bytes} {ks : List Bytes} {vs : List (JsonValue D)} (hk : Plain k)
    (hw : stringify ops v = some t) (ht : TextOf ops v t) (hvs : MembersOf ops ks vs t') :
    MembersOf ops (k :: ks) (v :: vs) (keyText k ++ (t ++ 44 :: t')) where
  noNul := by simp [ht.noNul, noNul_keyText hk, hvs.noNul]
  starts := ⟨_, rfl⟩
  written i sb := by
    simp only [stringifyObject, hw, Option.bind_eq_bind, Option.bind_some, hvs.written,
      StringBuilder.append_text _ ht.noNul, append_key _ hk]
    split_ifs <;> simp_all
  parses {p r fuel} obj hnodup hplain h hf := by
    obtain ⟨fuel, rfl⟩ : ∃ f, fuel = f + 1 := ⟨fuel - 1, by omega⟩
    simp only [List.length_append, List.length_cons] at hf
    have h₁ : Sees p (keyText k ++ (t ++ 44 :: (t' ++ r))) := by simpa using h
    obtain ⟨w, hsame, hparse⟩ := parseMembers_of_sees hk (not_streq_of_nodup hnodup hplain) ht
      h₁ (.inl rfl) (by omega : _ ≤ fuel)
    have h₂ : Sees (p.advance ((keyText k).length + t.length + 1)) (t' ++ r) := by
      have : Sees p ((keyText k ++ (t ++ [44])) ++ (t' ++ r)) := by simpa using h₁
      simpa [Nat.add_assoc] using this.advance
    obtain ⟨ws, hmembers, hsames⟩ := hvs.parses
      { obj with objKeys := obj.objKeys ++ [k], objVals := obj.objVals ++ [w] }
      (by simpa using hnodup) (by simpa using hplain) h₂ (by omega : _ ≤ fuel)
    refine ⟨w :: ws, ?_, .cons hsame hsames⟩
    rw [hparse, if_pos rfl, hmembers]
    simp [Parser.advance_advance, Nat.add_assoc, Nat.add_comm, Nat.add_left_comm]

theorem exists_membersOf {k : Bytes} {ks : List Bytes} {vs : List (JsonValue D)}
    (hplain : ∀ k' ∈ k :: ks, Plain k') (hlen : ks.length = vs.length)
    (h : ∀ w ∈ v :: vs, ∃ t, stringify ops w = some t ∧ TextOf ops w t) :
    ∃ t, MembersOf ops (k :: ks) (v :: vs) t := by
  induction ks generalizing k v vs with
  | nil =>
    obtain rfl : vs = [] := List.eq_nil_of_length_eq_zero hlen.symm
    obtain ⟨t, hw, ht⟩ := h v (by simp)
    exact ⟨_, membersOf_singleton (hplain k (by simp)) hw ht⟩
  | cons k' ks ih =>
    obtain ⟨w, vs, rfl⟩ : ∃ w ws, vs = w :: ws :=
      List.exists_cons_of_length_pos (hlen ▸ Nat.succ_pos _)
    obtain ⟨t, hw, ht⟩ := h v (by simp)
    obtain ⟨t', ht'⟩ := ih (fun k'' hk => hplain k'' (List.mem_cons_of_mem _ hk))
      (by simpa using hlen) fun u hu => h u (List.mem_cons_of_mem _ hu)
    exact ⟨_, membersOf_cons (hplain k (by simp)) hw ht ht'⟩

theorem stringify_object (hk : v.kind = .object) :
    stringify ops v = stringifyObject ops 0 ⟨[123]⟩ v.objKeys v.objVals := by
  obtain ⟨kind, b, n, s, arr, keys, vals⟩ := v
  subst hk
  cases b <;> simp [stringify, StringBuilder.appendChar]

theorem exists_textOf_object (hk : v.kind = .object) (hnodup : v.objKeys.Nodup)
    (hplain : ∀ k ∈ v.objKeys, Plain k) (hlen : v.objKeys.length = v.objVals.length)
    (h : ∀ w ∈ v.objVals, ∃ t, stringify ops w = some t ∧ TextOf ops w t) :
    ∃ t, stringify ops v = some t ∧ TextOf ops v t := by
  rw [stringify_object hk]
  cases hkeys : v.objKeys with
  | nil =>
    have hvals : v.objVals = [] := List.eq_nil_of_length_eq_zero (by rw [← hlen, hkeys]; rfl)
    have hstarts : StartsValue [123, 125] := ⟨_, _, rfl, by decide, by decide⟩
    refine ⟨[123, 125], by simp [stringifyObject], by decide, hstarts,
      fun {p r fuel} hp _ hf => ?_⟩
    obtain ⟨fuel, rfl⟩ : ∃ f, fuel = f + 2 := ⟨fuel - 2, by simp at hf; omega⟩
    have h₀ : Sees p (123 :: 125 :: r) := hp
    refine ⟨.newObject ops, ?_, .object rfl hk (by rw [hkeys]; rfl) (by rw [hvals]; exact .nil)⟩
    simp [parseValue, parseObject, h₀.skipWs_eq (by decide), h₀.peek_eq, charToInt,
      h₀.tail.skipWs_eq (by decide), h₀.tail.peek_eq, Parser.advance_advance]
  | cons k ks =>
    obtain ⟨w, ws, hvals⟩ : ∃ w ws, v.objVals = w :: ws :=
      List.exists_cons_of_length_pos (by rw [← hlen, hkeys]; exact Nat.succ_pos _)
    rw [hkeys, hvals] at hlen
    obtain ⟨t, ht⟩ := exists_membersOf (hkeys ▸ hplain) (by simpa using hlen) (hvals ▸ h)
    have hstarts : StartsValue (123 :: t) := ⟨_, _, rfl, by decide, by decide⟩
    refine ⟨123 :: t, by simp [hvals, ht.written], by simp [ht.noNul], hstarts,
      fun {p r fuel} hp _ hf => ?_⟩
    simp only [List.length_cons] at hf
    obtain ⟨fuel, rfl⟩ : ∃ f, fuel = f + 2 := ⟨fuel - 2, by omega⟩
    have h₀ : Sees p (123 :: (t ++ r)) := hp
    obtain ⟨ws', hmembers, hsame⟩ := ht.parses (.newObject ops) (by simpa [← hkeys] using hnodup)
      (by simpa [← hkeys] using hplain) h₀.tail (by omega : _ ≤ fuel)
    obtain ⟨t, rfl⟩ := ht.starts
    refine ⟨{ JsonValue.newObject ops with objKeys := k :: ks, objVals := ws' }, ?_,
      .object rfl hk hkeys.symm (hvals ▸ hsame)⟩
    simp [parseValue, parseObject, h₀.skipWs_eq (by decide), h₀.peek_eq, charToInt,
      h₀.tail.skipWs_eq (by decide), h₀.tail.peek_eq, hmembers, Parser.advance_advance,
      Nat.add_comm]

/-! ### The round trip -/

/-- Every tree has a text the parser reads it back from. -/
theorem exists_textOf
    (hgrammar : ∀ d, ops.finite d → DecimalText (ops.numberText d))
    (hconv : ∀ d, ops.finite d → ops.eq (ops.toDouble (ops.numberText d)) d)
    (hv : Tree ops v) : ∃ t, stringify ops v = some t ∧ TextOf ops v t := by
  induction hv with
  | @null v hk =>
    refine ⟨_, ?_, textOf_null hk⟩
    obtain ⟨kind, b⟩ := v
    subst hk
    cases b <;> simp [stringify]
  | @bool v hk =>
    obtain ⟨kind, b⟩ := v
    subst hk
    cases b
    · exact ⟨_, by simp [stringify], textOf_false rfl rfl⟩
    · exact ⟨_, by simp [stringify], textOf_true rfl rfl⟩
  | @number v hk hn =>
    refine ⟨_, ?_, textOf_number hk (hgrammar _ hn) (hconv _ hn)⟩
    obtain ⟨kind, b⟩ := v
    subst hk
    cases b <;> simp [stringify]
  | @string v hk hs =>
    refine ⟨_, ?_, textOf_string hk hs⟩
    obtain ⟨kind, b⟩ := v
    subst hk
    cases b <;> simp [stringify]
  | array hk _ ih => exact exists_textOf_array hk ih
  | object hk hkeys hplain hlen _ ih => exact exists_textOf_object hk hkeys hplain hlen ih

/-- `parse(stringify(v))` succeeds and equals `v`, for every tree `v`, when the text of a finite
double is in the number grammar and converts back to it. -/
theorem parse_stringify
    (hgrammar : ∀ d, ops.finite d → DecimalText (ops.numberText d))
    (hconv : ∀ d, ops.finite d → ops.eq (ops.toDouble (ops.numberText d)) d)
    (hv : Tree ops v) :
    ∃ t w, stringify ops v = some t ∧ parse ops t = .ok w ∧ Same ops w v := by
  obtain ⟨t, hw, ht⟩ := exists_textOf hgrammar hconv hv
  have hsees : Sees ⟨t, 0, strlen t⟩ (t ++ []) := ⟨strlen_of_noNul ht.noNul, by simp⟩
  obtain ⟨w, hparse, hsame⟩ := ht.parses hsees (by simp [Follows])
    (by rw [strlen_of_noNul ht.noNul]; omega : _ ≤ 3 * strlen t + 3)
  exact ⟨t, w, hw, by simp [parse, hparse, bind, Except.bind, pure, Except.pure], hsame⟩

/-- Doubles cut down to the naturals below ten, which print as their digit. -/
def digitDoubles : Doubles ℕ where
  zero := 0
  numberText := natToString
  toDouble t := t.foldl (fun n c => 10 * n + (c.toNat - 48)) 0
  finite n := n < 10
  eq m n := m = n

/-- `{"k": [7, "\n\u00e9"], "": false}`, with the `é` as its two bytes. -/
def sampleTree : JsonValue ℕ :=
  { JsonValue.newObject digitDoubles with
    objKeys := [[107], []]
    objVals :=
      [{ JsonValue.newArray digitDoubles with
          arrVal := [.fromNumber digitDoubles 7, .fromString digitDoubles [10, 195, 169]] },
        .fromBool digitDoubles false] }

theorem tree_sampleTree : Tree digitDoubles sampleTree := by
  refine .object rfl (by decide) (by simp [sampleTree, Plain, PlainByte]) rfl ?_
  simp only [sampleTree, List.mem_cons, List.not_mem_nil, or_false]
  rintro w (rfl | rfl)
  · refine .array rfl ?_
    simp only [List.mem_cons, List.not_mem_nil, or_false]
    rintro w (rfl | rfl)
    · exact .number rfl (by decide : 7 < 10)
    · exact .string rfl (by simp [JsonValue.fromString, Plain, PlainByte])
  · exact .bool rfl

theorem parse_stringify_sampleTree :
    ∃ t w, stringify digitDoubles sampleTree = some t ∧ parse digitDoubles t = .ok w ∧
      Same digitDoubles w sampleTree := by
  refine parse_stringify ?_ ?_ tree_sampleTree
  · intro d (hd : d < 10)
    have hdigit : ∀ n < 10, natToString n = [UInt8.ofNat (48 + n)] ∧
        isDigit (UInt8.ofNat (48 + n)) = true := by decide
    obtain ⟨htext, hc⟩ := hdigit d hd
    have := DecimalText.intro (.inl rfl) (fun c h => by rw [List.mem_singleton.1 h]; exact hc)
      (List.cons_ne_nil _ []) .none .none
    simpa [digitDoubles, htext] using this
  · intro d (hd : d < 10)
    have : ∀ n < 10, digitDoubles.toDouble (natToString n) = n := by decide
    exact this d hd

end TurfLang.Json
