import TurfLang.Std.Strings

/-!
# `lib/std/core/strings.tr`: the buffer of a `StringBuilder`

The cells of a buffer are written and read one by one. A result of `none` is a write or a read
outside the buffer, or a read of a cell that was never written. Sizes are natural numbers.
-/

namespace TurfLang.Strings

/-- A buffer of `gc_alloc`, as its cells. -/
abbrev Cells := List (Option UInt8)

/-- `gc_alloc(n) to string`. -/
def gcAlloc (n : ℕ) : Cells := List.replicate n none

/-- `buf[i] = c`. -/
def store (buf : Cells) (i : ℕ) (c : UInt8) : Option Cells :=
  if i < buf.length then some (buf.set i (some c)) else none

/-- `byte_at_unchecked` of a buffer. -/
def load (buf : Cells) (i : ℕ) : Option UInt8 := buf[i]?.join

/-- `byte_at_unchecked` of a string, whose terminator may be read too. -/
def byteAt (s : Bytes) (i : ℕ) : Option UInt8 := (s ++ [0])[i]?

/-- The string that a buffer holds: its bytes up to the first NUL. -/
def cString : Cells → Option Bytes
  | [] => none
  | none :: _ => none
  | some c :: cells => if c = 0 then some [] else (cString cells).map (c :: ·)

/-- `while i < n { buf[off + i] = read(i); i = i + 1; }`. -/
def copyBytes (read : ℕ → Option UInt8) (off n : ℕ) (buf : Cells) (i : ℕ) : Option Cells :=
  if i < n then do
    let c ← read i
    let buf ← store buf (off + i) c
    copyBytes read off n buf (i + 1)
  else some buf
termination_by n - i

/-- The members of `StringBuilder`; the empty string it begins with is not a buffer. -/
structure BuilderBuffer where
  buf : Cells := []
  len : ℕ := 0
  cap : ℕ := 0

namespace BuilderBuffer

/-- `while new_cap < need { new_cap = new_cap * 2; }`. -/
def double (need newCap : ℕ) (h : 0 < newCap) : ℕ :=
  if newCap < need then double need (newCap * 2) (by omega) else newCap
termination_by need - newCap

/-- `reserve`, of a size that is not negative. -/
def reserve (b : BuilderBuffer) (extra : ℕ) : Option BuilderBuffer :=
  let need := b.len + extra + 1
  if need ≤ b.cap then some b
  else
    let newCap := double need (max b.cap 16) (by omega)
    if b.cap = 0 then do
      let buf ← store (gcAlloc newCap) 0 0
      some { b with buf, cap := newCap }
    else some { b with buf := b.buf ++ gcAlloc (newCap - b.cap), cap := newCap }

/-- `append`. -/
def append (b : BuilderBuffer) (s : Bytes) : Option BuilderBuffer := do
  let n := strlen s
  let b ← b.reserve n
  let buf ← copyBytes (byteAt s) b.len n b.buf 0
  let buf ← store buf (b.len + n) 0
  some { b with buf, len := b.len + n }

/-- `append_char`. -/
def appendChar (b : BuilderBuffer) (c : UInt8) : Option BuilderBuffer := do
  let b ← b.reserve 1
  let buf ← store b.buf b.len c
  let buf ← store buf (b.len + 1) 0
  some { b with buf, len := b.len + 1 }

/-- `to_string`. -/
def toString (b : BuilderBuffer) : Option Bytes := do
  let out ← copyBytes (load b.buf) 0 b.len (gcAlloc (b.len + 1)) 0
  let out ← store out b.len 0
  cString out

end BuilderBuffer

/-! ### Copying -/

theorem store_append (l : Cells) (x : Option UInt8) (rest : Cells) {i : ℕ} (hi : i = l.length)
    (c : UInt8) : store (l ++ x :: rest) i c = some (l ++ some c :: rest) := by
  subst hi
  simp [store]

/-- The copied bytes stand where they are to go, and the cells around them are as they were. By
induction on the bytes that are still to be copied. -/
theorem copyBytes_spec {read : ℕ → Option UInt8} {off : ℕ} (src : Bytes) : ∀ (i : ℕ)
    (l gap rest : Cells), (∀ j c, src[j]? = some c → read (i + j) = some c) →
    l.length = off + i → gap.length = src.length →
    copyBytes read off (i + src.length) (l ++ gap ++ rest) i =
      some (l ++ src.map some ++ rest) := by
  induction src with
  | nil =>
    intro i l gap rest _ _ hgap
    obtain rfl := List.length_eq_zero_iff.mp hgap
    rw [copyBytes, if_neg (by simp)]
    rfl
  | cons c src ih =>
    intro i l gap rest hread hl hgap
    obtain ⟨x, gap, rfl⟩ := List.exists_cons_of_length_eq_add_one hgap
    have hc : read i = some c := hread 0 c rfl
    have hstore : store (l ++ x :: gap ++ rest) (off + i) c = some (l ++ [some c] ++ gap ++ rest) := by
      rw [List.append_assoc, List.cons_append, store_append l x _ hl.symm]
      simp
    rw [copyBytes, if_pos (by simp)]
    simp only [hc, hstore, Option.bind_eq_bind, Option.bind_some]
    have hrest := ih (i + 1) (l ++ [some c]) gap rest
      (fun j c' hj => by
        rw [Nat.add_right_comm, Nat.add_assoc]
        exact hread (j + 1) c' (by simpa using hj))
      (by simp [hl]; omega) (by simpa using hgap)
    rw [List.length_cons, Nat.add_comm src.length, ← Nat.add_assoc, hrest]
    simp

theorem byteAt_of_getElem? {s : Bytes} {i : ℕ} {c : UInt8} (h : s[i]? = some c) :
    byteAt s i = some c := by
  obtain ⟨hlt, -⟩ := List.getElem?_eq_some_iff.mp h
  rw [byteAt, List.getElem?_append_left hlt, h]

theorem cString_eq {text : Bytes} (h : 0 ∉ text) (rest : Cells) :
    cString (text.map some ++ some 0 :: rest) = some text := by
  induction text with
  | nil => simp [cString]
  | cons c text ih =>
    rw [List.mem_cons, not_or] at h
    simp [cString, Ne.symm h.1, ih h.2]

/-! ### The builder holds what was appended -/

namespace BuilderBuffer

theorem le_double (need newCap : ℕ) (h : 0 < newCap) :
    need ≤ double need newCap h ∧ newCap ≤ double need newCap h := by
  fun_induction double need newCap h with
  | case1 newCap h hlt ih => exact ⟨ih.1, by omega⟩
  | case2 newCap h hlt => exact ⟨by omega, le_rfl⟩

/-- The buffer holds a text and, one past it, its terminator. -/
structure Holds (b : BuilderBuffer) (text : Bytes) : Prop where
  len : b.len = text.length
  cap : b.buf.length = b.cap
  cells : b.cap = 0 ∧ text = [] ∨ ∃ rest, b.buf = text.map some ++ some 0 :: rest

variable {b : BuilderBuffer} {text : Bytes}

theorem holds_empty : Holds {} [] := ⟨rfl, rfl, .inl ⟨rfl, rfl⟩⟩

/-- After `reserve` there is a buffer with the room asked for. -/
theorem Holds.reserve (h : b.Holds text) (extra : ℕ) :
    ∃ b', b.reserve extra = some b' ∧ b'.len = text.length ∧ b'.buf.length = b'.cap ∧
      ∃ rest, b'.buf = text.map some ++ some 0 :: rest ∧ extra ≤ rest.length := by
  have hlen := h.len
  have hcap := h.cap
  unfold BuilderBuffer.reserve
  dsimp only
  split
  case isTrue hroom =>
    obtain ⟨hzero, -⟩ | ⟨rest, hrest⟩ := h.cells
    · omega
    · refine ⟨b, rfl, hlen, hcap, rest, hrest, ?_⟩
      rw [hrest, List.length_append, List.length_map, List.length_cons] at hcap
      omega
  case isFalse =>
    have hdouble := le_double (b.len + extra + 1) (max b.cap 16) (by omega)
    split
    case isTrue hzero =>
      obtain ⟨-, rfl⟩ | ⟨rest, hrest⟩ := h.cells
      · obtain ⟨n, hn⟩ := Nat.exists_eq_add_of_le' (hdouble.1.trans' (Nat.le_add_left 1 _))
        have hstore : store (gcAlloc (n + 1)) 0 0 = some (some 0 :: List.replicate n none) := by
          simp [store, gcAlloc, List.replicate_succ]
        rw [hn, hstore]
        refine ⟨_, rfl, hlen, by simp, List.replicate n none, rfl, ?_⟩
        rw [List.length_replicate]
        omega
      · rw [hrest] at hcap
        simp at hcap
        omega
    case isFalse hne =>
      obtain ⟨hzero, -⟩ | ⟨rest, hrest⟩ := h.cells
      · exact absurd hzero hne
      · refine ⟨_, rfl, hlen, ?_, rest ++ gcAlloc _, by rw [hrest]; simp; rfl, ?_⟩
        · simp [gcAlloc, hcap]
          omega
        · rw [hrest, List.length_append, List.length_map, List.length_cons] at hcap
          simp [gcAlloc]
          omega

theorem Holds.append (h : b.Holds text) {s : Bytes} (hs : 0 ∉ s) :
    ∃ b', b.append s = some b' ∧ b'.Holds (text ++ s) := by
  obtain ⟨b₁, hreserve, hlen, hcap, rest, hbuf, hroom⟩ := h.reserve s.length
  obtain ⟨gap, x, rest', hrest, hgap⟩ : ∃ (gap : Cells) (x : Option UInt8) (rest' : Cells),
      some 0 :: rest = gap ++ x :: rest' ∧ gap.length = s.length := by
    have hlt : s.length < (some (0 : UInt8) :: rest).length := by simpa using hroom
    refine ⟨(some 0 :: rest).take s.length, (some 0 :: rest)[s.length],
      (some 0 :: rest).drop (s.length + 1), ?_, by simp; omega⟩
    rw [← List.drop_eq_getElem_cons hlt, List.take_append_drop]
  have hcopy := @copyBytes_spec (byteAt s) text.length s 0 (text.map some) gap
    (x :: rest') (fun j c hj => by rw [Nat.zero_add]; exact byteAt_of_getElem? hj) (by simp) hgap
  have hend : store (text.map some ++ s.map some ++ x :: rest') (text.length + s.length) 0 =
      some (text.map some ++ s.map some ++ some 0 :: rest') :=
    store_append _ x rest' (by simp) 0
  rw [Nat.zero_add] at hcopy
  refine ⟨⟨text.map some ++ s.map some ++ some 0 :: rest', text.length + s.length, b₁.cap⟩, ?_,
    ⟨by simp, ?_, .inr ⟨rest', by simp⟩⟩⟩
  · rw [BuilderBuffer.append, strlen_of_noNul hs]
    simp only [hreserve, hlen, hbuf, hrest, ← List.append_assoc, hcopy, hend, Option.bind_eq_bind,
      Option.bind_some]
  · rw [← hcap, hbuf, hrest]
    simp [hgap]

theorem Holds.appendChar (h : b.Holds text) (c : UInt8) :
    ∃ b', b.appendChar c = some b' ∧ b'.Holds (text ++ [c]) := by
  obtain ⟨b₁, hreserve, hlen, hcap, rest, hbuf, hroom⟩ := h.reserve 1
  obtain ⟨x, rest, rfl⟩ := List.exists_cons_of_length_pos (l := rest) hroom
  have hstore : store b₁.buf b₁.len c = some (text.map some ++ some c :: x :: rest) := by
    rw [hbuf]
    exact store_append _ _ _ (by simp [hlen]) c
  have hend : store (text.map some ++ some c :: x :: rest) (b₁.len + 1) 0 =
      some (text.map some ++ [some c] ++ some 0 :: rest) := by
    have := store_append (text.map some ++ [some c]) x rest (i := b₁.len + 1) (by simp [hlen]) 0
    simpa using this
  refine ⟨⟨text.map some ++ [some c] ++ some 0 :: rest, b₁.len + 1, b₁.cap⟩, ?_,
    ⟨by simp [hlen], ?_, .inr ⟨rest, by simp⟩⟩⟩
  · simp only [BuilderBuffer.appendChar, hreserve, hstore, hend, Option.bind_eq_bind,
      Option.bind_some]
  · rw [← hcap, hbuf]
    simp

theorem Holds.toString (h : b.Holds text) (htext : 0 ∉ text) : b.toString = some text := by
  have hread : ∀ j c, text[j]? = some c → load b.buf (0 + j) = some c := by
    intro j c hj
    obtain ⟨-, rfl⟩ | ⟨rest, hrest⟩ := h.cells
    · simp at hj
    · obtain ⟨hlt, -⟩ := List.getElem?_eq_some_iff.mp hj
      rw [load, hrest, Nat.zero_add, List.getElem?_append_left (by simpa using hlt),
        List.getElem?_map, hj]
      rfl
  have hcopy := @copyBytes_spec (load b.buf) 0 text 0 [] (gcAlloc text.length)
    [none] hread rfl (by simp [gcAlloc])
  have halloc : gcAlloc (text.length + 1) = gcAlloc text.length ++ [none] := by
    simp [gcAlloc, List.replicate_succ']
  have hend : store (text.map some ++ [none]) text.length 0 = some (text.map some ++ [some 0]) :=
    store_append _ none [] (by simp) 0
  simp only [List.nil_append, Nat.zero_add] at hcopy
  simp only [BuilderBuffer.toString, h.len, halloc, hcopy, hend, Option.bind_eq_bind,
    Option.bind_some]
  exact cString_eq htext []

end BuilderBuffer

end TurfLang.Strings
