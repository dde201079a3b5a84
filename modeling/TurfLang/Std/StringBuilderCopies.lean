import TurfLang.Std.StringBuilder

/-!
# `lib/std/core/strings.tr`: copies of a `StringBuilder`

A `StringBuilder` is a struct: an assignment copies the pointer to its buffer, its length and its
capacity, and not the bytes. The blocks of the heap are named by the order in which they were
allocated. A result of `none` is an access outside a block, to a cell that was never written, or to a
block that `gc_realloc` gave back.
-/

namespace TurfLang.Strings

namespace Copies

/-- The blocks that were allocated; `none` is one that was given back. -/
abbrev Heap := List (Option Cells)

/-- `StringBuilder`. The empty string that `buf` is by default is no block. -/
structure Builder where
  buf : Option ℕ := none
  len : ℕ := 0
  cap : ℕ := 0

/-- The heap, the builders of a program, and the strings that `to_string` has returned to it. -/
structure Machine where
  heap : Heap := []
  builders : List Builder := []
  strings : List ℕ := []

/-! ### The methods -/

/-- The cells of a block. -/
def Heap.block (heap : Heap) (buf : Option ℕ) : Option Cells := do
  let id ← buf
  (heap[id]?).join

/-- `gc_realloc(p, n)`: the block grows where it is, or moves. -/
def Heap.gcRealloc (heap : Heap) (id n : ℕ) (moves : Bool) : Option (Heap × ℕ) := do
  let cells ← heap.block (some id)
  let grown := cells.take n ++ gcAlloc (n - cells.length)
  return if moves then (heap.set id none ++ [some grown], heap.length)
    else (heap.set id (some grown), id)

namespace Machine

/-- The bytes that are written to the buffer of a builder, and its new length. -/
def save (m : Machine) (i : ℕ) (b : Builder) (cells : Cells) (len : ℕ) : Option Machine := do
  let id ← b.buf
  return { m with
    heap := m.heap.set id (some cells)
    builders := m.builders.set i { b with len } }

/-- `reserve`, of a size that is not negative. -/
def reserve (m : Machine) (i extra : ℕ) (moves : Bool) : Option Machine := do
  let b ← m.builders[i]?
  let need := b.len + extra + 1
  if need ≤ b.cap then some m
  else
    let newCap := BuilderBuffer.double need (max b.cap 16) (by omega)
    if b.cap = 0 then do
      let cells ← store (gcAlloc newCap) 0 0
      return { m with
        heap := m.heap ++ [some cells]
        builders := m.builders.set i { b with buf := some m.heap.length, cap := newCap } }
    else do
      let id ← b.buf
      let (heap, id) ← m.heap.gcRealloc id newCap moves
      return { m with
        heap
        builders := m.builders.set i { b with buf := some id, cap := newCap } }

/-- `append`. -/
def append (m : Machine) (i : ℕ) (s : Bytes) (moves : Bool) : Option Machine := do
  let n := strlen s
  let m ← m.reserve i n moves
  let b ← m.builders[i]?
  let cells ← m.heap.block b.buf
  let cells ← copyBytes (byteAt s) b.len n cells 0
  let cells ← store cells (b.len + n) 0
  m.save i b cells (b.len + n)

/-- `append_char`. -/
def appendChar (m : Machine) (i : ℕ) (c : UInt8) (moves : Bool) : Option Machine := do
  let m ← m.reserve i 1 moves
  let b ← m.builders[i]?
  let cells ← m.heap.block b.buf
  let cells ← store cells b.len c
  let cells ← store cells (b.len + 1) 0
  m.save i b cells (b.len + 1)

/-- `length`. -/
def length (m : Machine) (i : ℕ) : Option ℕ := do
  let b ← m.builders[i]?
  return b.len

/-- `clear`. -/
def clear (m : Machine) (i : ℕ) : Option Machine := do
  let b ← m.builders[i]?
  if b.cap > 0 then do
    let cells ← m.heap.block b.buf
    let cells ← store cells 0 0
    m.save i b cells 0
  else return { m with builders := m.builders.set i { b with len := 0 } }

/-- `to_string`; the string is the last of those that were returned. -/
def toString (m : Machine) (i : ℕ) : Option Machine := do
  let b ← m.builders[i]?
  let read := fun j => do
    let cells ← m.heap.block b.buf
    load cells j
  let out ← copyBytes read 0 b.len (gcAlloc (b.len + 1)) 0
  let out ← store out b.len 0
  return { m with heap := m.heap ++ [some out], strings := m.strings ++ [m.heap.length] }

end Machine

/-! ### Runs -/

/-- What a program does with builders: it makes them, copies them and calls their methods.
`moves` is whether `gc_realloc` moves the block, should the call grow the buffer. -/
inductive Op
  | default
  | copy (src : ℕ)
  | assign (dst src : ℕ)
  | reserve (i extra : ℕ) (moves : Bool)
  | append (i : ℕ) (s : Bytes) (moves : Bool)
  | appendChar (i : ℕ) (c : UInt8) (moves : Bool)
  | length (i : ℕ)
  | clear (i : ℕ)
  | toString (i : ℕ)

def Machine.step (m : Machine) : Op → Option Machine
  | .default => some { m with builders := m.builders ++ [{}] }
  | .copy src => do
    let b ← m.builders[src]?
    return { m with builders := m.builders ++ [b] }
  | .assign dst src => do
    let b ← m.builders[src]?
    return { m with builders := m.builders.set dst b }
  | .reserve i extra moves => m.reserve i extra moves
  | .append i s moves => m.append i s moves
  | .appendChar i c moves => m.appendChar i c moves
  | .length i => do
    let _ ← m.length i
    return m
  | .clear i => m.clear i
  | .toString i => m.toString i

/-- What was appended to each builder since its last `clear`, and the strings that were asked for. -/
structure Spec where
  texts : List Bytes := []
  strings : List Bytes := []

def Spec.step (σ : Spec) : Op → Spec
  | .default => { σ with texts := σ.texts ++ [[]] }
  | .copy src => { σ with texts := σ.texts ++ σ.texts[src]?.toList }
  | .assign dst src => { σ with texts := σ.texts.set dst (σ.texts.getD src []) }
  | .append i s _ => { σ with texts := σ.texts.modify i (· ++ s) }
  | .appendChar i c _ => { σ with texts := σ.texts.modify i (· ++ [c]) }
  | .clear i => { σ with texts := σ.texts.set i [] }
  | .toString i => { σ with strings := σ.strings ++ σ.texts[i]?.toList }
  | .reserve _ _ _ | .length _ => σ

/-! ### When a call leaves the copies alone -/

/-- Every other builder that holds the buffer of builder `i` has a property. -/
def Machine.Sharers (m : Machine) (i : ℕ) (P : Builder → Prop) : Prop :=
  ∀ j b b', j ≠ i → m.builders[i]? = some b → m.builders[j]? = some b' → b.buf ≠ none →
    b'.buf = b.buf → P b'

/-- There is room for some bytes, or no other builder holds the buffer that is to grow. -/
def Machine.GrowsAlone (m : Machine) (i extra : ℕ) : Prop :=
  ∀ b, m.builders[i]? = some b → b.len + extra + 1 ≤ b.cap ∨ m.Sharers i fun _ => False

/-- The builders that an operation names exist, a string has no NUL, and a call changes no byte of
another builder and moves no buffer that another builder holds. -/
def Machine.Permits (m : Machine) : Op → Prop
  | .default => True
  | .copy src => src < m.builders.length
  | .assign dst src => dst < m.builders.length ∧ src < m.builders.length
  | .reserve i extra _ => i < m.builders.length ∧ m.GrowsAlone i extra
  | .append i s _ => i < m.builders.length ∧ 0 ∉ s ∧ m.GrowsAlone i s.length ∧
      ∀ b, m.builders[i]? = some b → m.Sharers i fun b' => b'.len ≤ b.len
  | .appendChar i _ _ => i < m.builders.length ∧ m.GrowsAlone i 1 ∧
      ∀ b, m.builders[i]? = some b → m.Sharers i fun b' => b'.len ≤ b.len
  | .clear i => i < m.builders.length ∧ m.Sharers i fun b' => b'.len = 0
  | .length i | .toString i => i < m.builders.length

/-- What operations lead to, and what it stands for. -/
inductive Reachable : Machine → Spec → Prop
  | start : Reachable {} {}
  | step {m m' : Machine} {σ : Spec} {op : Op} :
      Reachable m σ → m.Permits op → m.step op = some m' → Reachable m' (σ.step op)

/-! ### The invariant -/

/-- The buffer of a builder begins with a text and has room for a terminator. -/
structure Holds (heap : Heap) (b : Builder) (text : Bytes) : Prop where
  len : b.len = text.length
  cells : b.cap = 0 ∧ b.buf = none ∧ text = [] ∨
    ∃ id rest, b.buf = some id ∧ heap[id]? = some (some (text.map some ++ rest)) ∧
      text.length + rest.length = b.cap ∧ rest ≠ []

/-- Each builder holds its text, each string that was returned is as it was, and no builder holds
the block of a string. -/
structure Inv (m : Machine) (σ : Spec) : Prop where
  length_eq : m.builders.length = σ.texts.length
  holds : ∀ {i : ℕ} {b : Builder} {text : Bytes}, m.builders[i]? = some b →
    σ.texts[i]? = some text → Holds m.heap b text
  strings_length_eq : m.strings.length = σ.strings.length
  strings : ∀ {n id : ℕ} {text : Bytes}, m.strings[n]? = some id → σ.strings[n]? = some text →
    m.heap[id]? = some (some (text.map some ++ [some 0]))
  apart : ∀ id ∈ m.strings, ∀ b ∈ m.builders, b.buf ≠ some id

theorem Holds.default (heap : Heap) : Holds heap {} [] := ⟨rfl, .inl ⟨rfl, rfl, rfl⟩⟩

theorem Holds.lt {heap : Heap} {b : Builder} {text : Bytes} (h : Holds heap b text) {id : ℕ}
    (hid : b.buf = some id) : id < heap.length := by
  obtain ⟨-, hnone, -⟩ | ⟨id', rest, hid', hcells, -⟩ := h.cells
  · cases hid.symm.trans hnone
  · obtain rfl := Option.some.inj (hid.symm.trans hid')
    exact (List.getElem?_eq_some_iff.mp hcells).1

/-- A builder holds its text as long as its block is as it was. -/
theorem Holds.frame {heap heap' : Heap} {b : Builder} {text : Bytes} (h : Holds heap b text)
    (hkeep : ∀ id, b.buf = some id → heap'[id]? = heap[id]?) : Holds heap' b text := by
  refine ⟨h.len, h.cells.imp id ?_⟩
  rintro ⟨id, rest, hid, hcells, hlen, hrest⟩
  exact ⟨id, rest, hid, (hkeep id hid).trans hcells, hlen, hrest⟩

namespace Inv

variable {m : Machine} {σ : Spec}

theorem exists_text (hI : Inv m σ) {i : ℕ} (hi : i < m.builders.length) :
    ∃ b text, m.builders[i]? = some b ∧ σ.texts[i]? = some text ∧ Holds m.heap b text := by
  have hi' : i < σ.texts.length := hI.length_eq ▸ hi
  exact ⟨_, _, List.getElem?_eq_getElem hi, List.getElem?_eq_getElem hi',
    hI.holds (List.getElem?_eq_getElem hi) (List.getElem?_eq_getElem hi')⟩

theorem string_lt (hI : Inv m σ) {id : ℕ} (hid : id ∈ m.strings) : id < m.heap.length := by
  obtain ⟨n, hn⟩ := List.getElem?_of_mem hid
  have hlt : n < σ.strings.length := hI.strings_length_eq ▸ (List.getElem?_eq_some_iff.mp hn).1
  exact (List.getElem?_eq_some_iff.mp (hI.strings hn (List.getElem?_eq_getElem hlt))).1

/-- A buffer that a builder has, and a new block, is no string. -/
theorem apart_of (hI : Inv m σ) {i : ℕ} {b b' : Builder} (hb : m.builders[i]? = some b)
    (hbuf : b'.buf = b.buf ∨ ∃ id, b'.buf = some id ∧ m.heap.length ≤ id) :
    ∀ id ∈ m.strings, b'.buf ≠ some id := by
  intro id hid hid'
  obtain hsame | ⟨id', hnew, hle⟩ := hbuf
  · exact hI.apart id hid b (List.mem_of_getElem? hb) (hsame ▸ hid')
  · have := hI.string_lt hid
    obtain rfl := Option.some.inj (hnew.symm.trans hid')
    omega

/-- A change to the block of one builder, to which the others that hold it agree, or to a new
block. -/
theorem update (hI : Inv m σ) {i : ℕ} {b' : Builder} {text' : Bytes} {heap : Heap}
    (hholds : Holds heap b' text')
    (hkeep : ∀ id < m.heap.length, (∀ b, m.builders[i]? = some b → b.buf ≠ some id) →
      heap[id]? = m.heap[id]?)
    (hshare : ∀ j b b'' text'', j ≠ i → m.builders[i]? = some b → m.builders[j]? = some b'' →
      b.buf ≠ none → b''.buf = b.buf → σ.texts[j]? = some text'' → Holds heap b'' text'')
    (hapart : ∀ id ∈ m.strings, b'.buf ≠ some id) :
    Inv { m with heap, builders := m.builders.set i b' }
      { σ with texts := σ.texts.set i text' } where
  length_eq := by simpa using hI.length_eq
  holds {j b'' text''} hb'' htext'' := by
    by_cases hj : j = i
    · subst hj
      rw [List.getElem?_set] at hb'' htext''
      simp only [if_true] at hb'' htext''
      split_ifs at hb'' htext''
      obtain rfl := Option.some.inj hb''
      obtain rfl := Option.some.inj htext''
      exact hholds
    · rw [List.getElem?_set_ne (Ne.symm hj)] at hb'' htext''
      have hold := hI.holds hb'' htext''
      by_cases hshared : ∃ b, m.builders[i]? = some b ∧ b.buf ≠ none ∧ b''.buf = b.buf
      · obtain ⟨b, hb, hne, hbuf⟩ := hshared
        exact hshare j b b'' text'' hj hb hb'' hne hbuf htext''
      · refine hold.frame fun id hid => hkeep id (hold.lt hid) fun b hb hbuf => hshared ?_
        exact ⟨b, hb, by simp [hbuf], hid.trans hbuf.symm⟩
  strings_length_eq := hI.strings_length_eq
  strings {n id text} hid htext := by
    have hmem := List.mem_of_getElem? hid
    rw [hkeep id (hI.string_lt hmem) fun b hb => hI.apart id hmem b (List.mem_of_getElem? hb)]
    exact hI.strings hid htext
  apart id hid b hb hbuf := by
    obtain ⟨j, hj⟩ := List.getElem?_of_mem hb
    rw [List.getElem?_set] at hj
    split_ifs at hj with hji hlt
    · obtain rfl := Option.some.inj hj
      exact hapart id hid hbuf
    · exact hI.apart id hid b (List.mem_of_getElem? hj) hbuf

end Inv

/-! ### `reserve` -/

theorem Holds.block {heap : Heap} {b : Builder} {id : ℕ} {cells : Cells} (hid : b.buf = some id)
    (hcells : heap[id]? = some (some cells)) : heap.block b.buf = some cells := by
  simp [Heap.block, hid, hcells]

/-- After `reserve` there is room, the texts are as they were, and no other builder has come to hold
the buffer. -/
structure Reserved (m : Machine) (σ : Spec) (i extra : ℕ) (m' : Machine) : Prop where
  inv : Inv m' σ
  room : ∃ b b', m.builders[i]? = some b ∧ m'.builders[i]? = some b' ∧ b'.len = b.len ∧
    b'.len + extra + 1 ≤ b'.cap
  sharers : ∀ P, m.Sharers i P → m'.Sharers i P

namespace Inv

variable {m : Machine} {σ : Spec}

/-- The new buffer of a builder is not held by another, unless the old one was. -/
theorem reserved_of_update (hI : Inv m σ) {i extra : ℕ} {b b' : Builder} {text : Bytes}
    {heap : Heap} (hb : m.builders[i]? = some b) (htext : σ.texts[i]? = some text)
    (halone : m.Sharers i fun _ => False) (hlen : b'.len = b.len)
    (hroom : b'.len + extra + 1 ≤ b'.cap) (hholds : Holds heap b' text)
    (hkeep : ∀ id < m.heap.length, b.buf ≠ some id → heap[id]? = m.heap[id]?)
    (hbuf : b'.buf = b.buf ∧ b.buf ≠ none ∨ ∃ id, b'.buf = some id ∧ m.heap.length ≤ id) :
    Reserved m σ i extra { m with heap, builders := m.builders.set i b' } := by
  have hi : i < m.builders.length := (List.getElem?_eq_some_iff.mp hb).1
  have hinv := hI.update (i := i) hholds (fun id hlt h => hkeep id hlt (h b hb))
    (fun j b₁ b₂ _ hj hb₁ hb₂ hne hsame _ => (halone j b₁ b₂ hj hb₁ hb₂ hne hsame).elim)
    (hI.apart_of hb (hbuf.imp_left And.left))
  have hself : σ.texts.set i text = σ.texts := by
    obtain ⟨hlt, rfl⟩ := List.getElem?_eq_some_iff.mp htext
    exact List.set_getElem_self hlt
  rw [hself] at hinv
  refine ⟨hinv, ⟨b, b', hb, List.getElem?_set_self hi, hlen, hroom⟩, ?_⟩
  rintro P - j b₁ b₂ hj hb₁ hb₂ hne hsame
  have hb₁' : b' = b₁ := by
    simpa [List.getElem?_set_self hi] using hb₁
  subst hb₁'
  have hb₂' : m.builders[j]? = some b₂ := by
    simpa [List.getElem?_set_ne (Ne.symm hj)] using hb₂
  obtain ⟨hold, hnone⟩ | ⟨id, hid, hle⟩ := hbuf
  · exact (halone j b b₂ hj hb hb₂' hnone (hsame.trans hold)).elim
  · obtain ⟨_, text₂, hget, htext₂, hholds₂⟩ :=
      hI.exists_text (List.getElem?_eq_some_iff.mp hb₂').1
    obtain rfl := Option.some.inj (hb₂'.symm.trans hget)
    have := hholds₂.lt (hsame.trans hid)
    omega

theorem reserve (hI : Inv m σ) {i extra : ℕ} (hi : i < m.builders.length)
    (hgrow : m.GrowsAlone i extra) (moves : Bool) :
    ∃ m', m.reserve i extra moves = some m' ∧ Reserved m σ i extra m' := by
  obtain ⟨b, text, hb, htext, hholds⟩ := hI.exists_text hi
  have hlen := hholds.len
  simp only [Machine.reserve, hb, Option.bind_eq_bind, Option.bind_some]
  split
  case isTrue hroom => exact ⟨m, rfl, hI, ⟨b, b, hb, hb, rfl, hroom⟩, fun _ h => h⟩
  case isFalse hroom =>
    have halone := (hgrow b hb).resolve_left hroom
    obtain ⟨hle, hcap⟩ := BuilderBuffer.le_double (b.len + extra + 1) (max b.cap 16) (by omega)
    set newCap := BuilderBuffer.double (b.len + extra + 1) (max b.cap 16) (by omega)
    split
    case isTrue hzero =>
      obtain ⟨-, hnone, rfl⟩ | ⟨id, rest, -, -, hcount, hrest⟩ := hholds.cells
      · obtain ⟨n, hn⟩ := Nat.exists_eq_add_of_le' (hle.trans' (Nat.le_add_left 1 _))
        have hstore : store (gcAlloc newCap) 0 0 = some (some 0 :: List.replicate n none) := by
          rw [hn]
          simp [store, gcAlloc, List.replicate_succ]
        rw [hstore]
        refine ⟨_, rfl, hI.reserved_of_update hb htext halone rfl hle ?_ ?_ ?_⟩
        · refine ⟨hlen, .inr ⟨m.heap.length, some 0 :: List.replicate n none, rfl, ?_, ?_, ?_⟩⟩
          · simp
          · simp [hn]
          · simp
        · intro id hlt _
          rw [List.getElem?_append_left hlt]
        · exact .inr ⟨_, rfl, le_rfl⟩
      · have := List.length_pos_iff.mpr hrest
        omega
    case isFalse hzero =>
      obtain ⟨hcap0, -⟩ | ⟨id, rest, hid, hcells, hcount, hrest⟩ := hholds.cells
      · exact absurd hcap0 hzero
      have hcellslen : (text.map some ++ rest).length = b.cap := by simpa using hcount
      have hgrown : (text.map some ++ rest).take newCap ++
          gcAlloc (newCap - (text.map some ++ rest).length) =
            text.map some ++ (rest ++ gcAlloc (newCap - b.cap)) := by
        rw [List.take_of_length_le (by omega), hcellslen, List.append_assoc]
      have hidlt : id < m.heap.length := (List.getElem?_eq_some_iff.mp hcells).1
      have hnewlen : text.length + (rest ++ gcAlloc (newCap - b.cap)).length = newCap := by
        simp [gcAlloc]
        omega
      simp only [hid, Option.bind_some, Heap.gcRealloc, Heap.block, hcells, Option.join_some,
        Option.bind_eq_bind, Option.pure_def, hgrown]
      cases moves with
      | true =>
        simp only [if_true]
        refine ⟨_, rfl, hI.reserved_of_update hb htext halone rfl hle ?_ ?_ ?_⟩
        · refine ⟨hlen, .inr ⟨m.heap.length, _, rfl, ?_, hnewlen, by simp [hrest]⟩⟩
          rw [List.getElem?_append_right (by simp)]
          simp
        · intro id' hlt hne
          rw [List.getElem?_append_left (by simpa using hlt), List.getElem?_set_ne]
          rintro rfl
          exact hne hid
        · exact .inr ⟨_, rfl, le_rfl⟩
      | false =>
        simp only [Bool.false_eq_true, if_false]
        refine ⟨_, rfl, hI.reserved_of_update hb htext halone rfl hle ?_ ?_ ?_⟩
        · exact ⟨hlen, .inr ⟨id, _, rfl, List.getElem?_set_self hidlt, hnewlen, by simp [hrest]⟩⟩
        · intro id' _ hne
          rw [List.getElem?_set_ne]
          rintro rfl
          exact hne hid
        · exact .inl ⟨hid.symm, by simp [hid]⟩

end Inv

/-! ### Writing to a buffer -/

/-- Of two texts at the start of one block the shorter is the start of the longer. -/
theorem prefix_of_shared {text text' : Bytes} {rest rest' : Cells}
    (h : text'.map some ++ rest' = text.map some ++ rest) (hle : text'.length ≤ text.length) :
    text' <+: text := by
  have htake := congrArg (List.take text'.length) h
  rw [List.take_left' (by simp), List.take_append_of_le_length (by simpa using hle),
    ← List.map_take] at htake
  rw [List.map_injective_iff.mpr (Option.some_injective _) htake]
  exact List.take_prefix _ _

namespace Inv

variable {m : Machine} {σ : Spec}

/-- A builder whose buffer another holds has a text that begins like that of the other, if it is not
longer. -/
theorem prefix_of_sharer (hI : Inv m σ) {i j : ℕ} {b b' : Builder} {text text' : Bytes}
    (hb : m.builders[i]? = some b) (htext : σ.texts[i]? = some text)
    (hb' : m.builders[j]? = some b') (htext' : σ.texts[j]? = some text') (hne : b.buf ≠ none)
    (hbuf : b'.buf = b.buf) (hle : b'.len ≤ b.len) : text' <+: text ∧ b'.cap = b.cap := by
  have hholds := hI.holds hb htext
  have hholds' := hI.holds hb' htext'
  obtain ⟨-, hnone, -⟩ | ⟨id, rest, hid, hcells, hcount, -⟩ := hholds.cells
  · exact absurd hnone hne
  obtain ⟨-, hnone, -⟩ | ⟨id', rest', hid', hcells', hcount', -⟩ := hholds'.cells
  · exact absurd (hbuf ▸ hnone) hne
  obtain rfl := Option.some.inj (hid'.symm.trans (hbuf.trans hid))
  have hsame : text'.map some ++ rest' = text.map some ++ rest := by
    simpa using hcells'.symm.trans hcells
  refine ⟨prefix_of_shared hsame (hholds'.len ▸ hholds.len ▸ hle), ?_⟩
  have hlength := congrArg List.length hsame
  simp only [List.length_append, List.length_map] at hlength
  omega

/-- The buffer of a builder begins with a new text, which begins with the texts of the other
builders that hold the buffer. -/
theorem save (hI : Inv m σ) {i : ℕ} {b : Builder} {text : Bytes} (hb : m.builders[i]? = some b)
    (htext : σ.texts[i]? = some text) {id : ℕ} (hid : b.buf = some id) (text' : Bytes)
    (rest' : Cells) (hcount : text'.length + rest'.length = b.cap) (hrest : rest' ≠ [])
    (hshare : ∀ j b'' text'', j ≠ i → m.builders[j]? = some b'' → b''.buf = b.buf →
      σ.texts[j]? = some text'' → text'' <+: text' ∧ b''.cap = b.cap) :
    ∃ m', m.save i b (text'.map some ++ rest') text'.length = some m' ∧
      Inv m' { σ with texts := σ.texts.set i text' } := by
  have hidlt := (hI.holds hb htext).lt hid
  refine ⟨_, by simp only [Machine.save, hid, Option.bind_eq_bind, Option.bind_some]; rfl,
    hI.update ?_ ?_ ?_ ?_⟩
  · exact ⟨rfl, .inr ⟨id, rest', rfl, List.getElem?_set_self hidlt, hcount, hrest⟩⟩
  · intro id' _ hne
    rw [List.getElem?_set_ne]
    rintro rfl
    exact hne b hb hid
  · intro j b₁ b'' text'' hj hb₁ hb'' _ hbuf htext''
    obtain rfl := Option.some.inj (hb.symm.trans hb₁)
    obtain ⟨⟨t, rfl⟩, hcap⟩ := hshare j b'' text'' hj hb'' hbuf htext''
    refine ⟨(hI.holds hb'' htext'').len, .inr ⟨id, t.map some ++ rest', hbuf.trans hid, ?_, ?_, ?_⟩⟩
    · rw [List.getElem?_set_self hidlt]
      simp
    · simp only [List.length_append, List.length_map] at hcount ⊢
      omega
    · simp [hrest]
  · exact hI.apart_of hb (.inl hid.symm)

/-- What `append` and `append_char` write behind the text of a builder, once there is room. -/
theorem exists_append (hI : Inv m σ) {i : ℕ} {s : Bytes} {m₁ : Machine}
    (hR : Reserved m σ i s.length m₁) (hi : i < m.builders.length)
    (hshort : ∀ b, m.builders[i]? = some b → m.Sharers i fun b' => b'.len ≤ b.len) :
    ∃ (b : Builder) (text : Bytes) (x : Option UInt8) (gap rest : Cells),
      m₁.builders[i]? = some b ∧ b.len = text.length ∧
      m₁.heap.block b.buf = some (text.map some ++ gap ++ x :: rest) ∧ gap.length = s.length ∧
      ∃ m', m₁.save i b (text.map some ++ s.map some ++ some 0 :: rest) (b.len + s.length) =
        some m' ∧ Inv m' { σ with texts := σ.texts.modify i (· ++ s) } := by
  obtain ⟨b₀, b, hb₀, hb, hlen, hroom⟩ := hR.room
  have hlt : i < σ.texts.length := hI.length_eq ▸ hi
  obtain ⟨text, htext⟩ : ∃ text, σ.texts[i]? = some text := ⟨_, List.getElem?_eq_getElem hlt⟩
  have hholds := hR.inv.holds hb htext
  have hblen := hholds.len
  obtain ⟨hcap, -⟩ | ⟨id, cells, hid, hcells, hcount, -⟩ := hholds.cells
  · omega
  have hlong : s.length < cells.length := by omega
  refine ⟨b, text, cells[s.length], cells.take s.length, cells.drop (s.length + 1), hb, hblen, ?_,
    by simp; omega, ?_⟩
  · rw [Holds.block hid hcells, List.append_assoc, ← List.drop_eq_getElem_cons hlong,
      List.take_append_drop]
  obtain ⟨m', hm', hinv⟩ := hR.inv.save hb htext hid (text ++ s)
    (some 0 :: cells.drop (s.length + 1)) (by simp; omega) (by simp)
    fun j b'' text'' hj hb'' hbuf htext'' => by
      have hle : b''.len ≤ b.len := by
        rw [hlen]
        exact hR.sharers _ (hshort b₀ hb₀) j b b'' hj hb hb'' (by simp [hid]) hbuf
      obtain ⟨hstarts, hcap⟩ :=
        hR.inv.prefix_of_sharer hb htext hb'' htext'' (by simp [hid]) hbuf hle
      exact ⟨hstarts.trans (List.prefix_append _ _), hcap⟩
  refine ⟨m', ?_, ?_⟩
  · rwa [List.map_append, List.length_append, ← hblen] at hm'
  · have hmodify : σ.texts.modify i (· ++ s) = σ.texts.set i (text ++ s) := by
      rw [List.modify_eq_set, htext]
      rfl
    rwa [hmodify]

/-! ### Steps -/

theorem append (hI : Inv m σ) {i : ℕ} {s : Bytes} (moves : Bool)
    (hop : m.Permits (.append i s moves)) :
    ∃ m', m.append i s moves = some m' ∧ Inv m' (σ.step (.append i s moves)) := by
  obtain ⟨hi, hs, hgrow, hshort⟩ := hop
  obtain ⟨m₁, hreserve, hR⟩ := hI.reserve hi hgrow moves
  obtain ⟨b, text, x, gap, rest, hb, hlen, hblock, hgap, m', hsave, hinv⟩ :=
    hI.exists_append hR hi hshort
  have hcopy := @copyBytes_spec (byteAt s) text.length s 0 (text.map some) gap (x :: rest)
    (fun j c hj => by rw [Nat.zero_add]; exact byteAt_of_getElem? hj) (by simp) hgap
  rw [Nat.zero_add] at hcopy
  have hend : store (text.map some ++ s.map some ++ x :: rest) (text.length + s.length) 0 =
      some (text.map some ++ s.map some ++ some 0 :: rest) :=
    store_append _ x rest (by simp) 0
  refine ⟨m', ?_, hinv⟩
  rw [hlen] at hsave
  simp only [Machine.append, strlen_of_noNul hs, hreserve, hb, hblock, hlen, hcopy, hend, hsave,
    Option.bind_eq_bind, Option.bind_some]

theorem appendChar (hI : Inv m σ) {i : ℕ} {c : UInt8} (moves : Bool)
    (hop : m.Permits (.appendChar i c moves)) :
    ∃ m', m.appendChar i c moves = some m' ∧ Inv m' (σ.step (.appendChar i c moves)) := by
  obtain ⟨hi, hgrow, hshort⟩ := hop
  obtain ⟨m₁, hreserve, hR⟩ := hI.reserve hi hgrow moves
  obtain ⟨b, text, x, gap, rest, hb, hlen, hblock, hgap, m', hsave, hinv⟩ :=
    hI.exists_append (s := [c]) hR hi hshort
  obtain ⟨y, rfl⟩ := List.length_eq_one_iff.mp hgap
  have hstore : store (text.map some ++ [y] ++ x :: rest) text.length c =
      some (text.map some ++ some c :: x :: rest) := by
    rw [List.append_assoc]
    exact store_append _ y _ (by simp) c
  have hend : store (text.map some ++ some c :: x :: rest) (text.length + 1) 0 =
      some (text.map some ++ [c].map some ++ some 0 :: rest) := by
    have h := store_append (text.map some ++ [some c]) x rest (i := text.length + 1) (by simp) 0
    simpa using h
  refine ⟨m', ?_, hinv⟩
  rw [hlen] at hsave
  simp only [Machine.appendChar, hreserve, hb, hblock, hlen, hstore, hend, Option.bind_eq_bind,
    Option.bind_some]
  exact hsave

theorem clear (hI : Inv m σ) {i : ℕ} (hop : m.Permits (.clear i)) :
    ∃ m', m.clear i = some m' ∧ Inv m' (σ.step (.clear i)) := by
  obtain ⟨hi, hshare⟩ := hop
  obtain ⟨b, text, hb, htext, hholds⟩ := hI.exists_text hi
  simp only [Machine.clear, hb, Option.bind_eq_bind, Option.bind_some]
  obtain ⟨hcap, hnone, -⟩ | ⟨id, rest, hid, hcells, hcount, hrest⟩ := hholds.cells
  · rw [if_neg (by omega)]
    refine ⟨_, rfl, hI.update ⟨rfl, .inl ⟨hcap, hnone, rfl⟩⟩ (fun _ _ _ => rfl) ?_ ?_⟩
    · intro j b₁ b'' text'' _ hb₁ _ hne
      obtain rfl := Option.some.inj (hb.symm.trans hb₁)
      exact absurd hnone hne
    · exact hI.apart_of hb (.inl rfl)
  · have hpos := List.length_pos_iff.mpr hrest
    rw [if_pos (by omega)]
    obtain ⟨y, cells, hcons⟩ := List.exists_cons_of_length_pos
      (l := text.map some ++ rest) (by simp; omega)
    have hlength := congrArg List.length hcons
    simp only [List.length_append, List.length_map, List.length_cons] at hlength
    obtain ⟨m', hsave, hinv⟩ := hI.save hb htext hid [] (some 0 :: cells)
      (by simp; omega) (by simp) fun j b'' text'' hj hb'' hbuf htext'' => by
        have hzero := hshare j b b'' hj hb hb'' (by simp [hid]) hbuf
        obtain ⟨-, hcap⟩ := hI.prefix_of_sharer hb htext hb'' htext'' (by simp [hid]) hbuf
          (by omega)
        have hlen := (hI.holds hb'' htext'').len
        rw [List.eq_nil_of_length_eq_zero (hlen.symm.trans hzero)]
        exact ⟨List.prefix_rfl, hcap⟩
    refine ⟨m', ?_, hinv⟩
    have hstore : store (text.map some ++ rest) 0 0 = some (some 0 :: cells) := by
      rw [hcons]
      exact store_append [] y cells rfl 0
    rw [Holds.block hid hcells]
    simp only [Option.bind_some, hstore]
    exact hsave

theorem toString (hI : Inv m σ) {i : ℕ} (hi : i < m.builders.length) :
    ∃ m', m.toString i = some m' ∧ Inv m' (σ.step (.toString i)) := by
  obtain ⟨b, text, hb, htext, hholds⟩ := hI.exists_text hi
  set read : ℕ → Option UInt8 := fun j => do
    let cells ← m.heap.block b.buf
    load cells j with hread
  have hbytes : ∀ j c, text[j]? = some c → read (0 + j) = some c := by
    intro j c hj
    obtain ⟨-, -, rfl⟩ | ⟨id, rest, hid, hcells, -⟩ := hholds.cells
    · simp at hj
    · obtain ⟨hlt, -⟩ := List.getElem?_eq_some_iff.mp hj
      simp only [hread, Holds.block hid hcells, Option.bind_eq_bind, Option.bind_some, load,
        Nat.zero_add]
      rw [List.getElem?_append_left (by simpa using hlt), List.getElem?_map, hj]
      rfl
  have hcopy := @copyBytes_spec read 0 text 0 [] (gcAlloc text.length) [none] hbytes rfl
    (by simp [gcAlloc])
  have halloc : gcAlloc (text.length + 1) = gcAlloc text.length ++ [none] := by
    simp [gcAlloc, List.replicate_succ']
  have hend : store (text.map some ++ [none]) text.length 0 = some (text.map some ++ [some 0]) :=
    store_append _ none [] (by simp) 0
  simp only [List.nil_append, Nat.zero_add] at hcopy
  refine ⟨{ m with
      heap := m.heap ++ [some (text.map some ++ [some 0])]
      strings := m.strings ++ [m.heap.length] }, ?_, hI.length_eq, ?_, ?_, ?_, ?_⟩
  · simp only [Machine.toString, hb, hholds.len, halloc, Option.bind_eq_bind, Option.bind_some]
    change (copyBytes read 0 text.length (gcAlloc text.length ++ [none]) 0).bind _ = _
    simp only [hcopy, Option.bind_some, hend, Option.pure_def]
  · intro j b' text' hb' htext'
    have hold := hI.holds hb' htext'
    exact hold.frame fun id hid => List.getElem?_append_left (hold.lt hid)
  · simp [Spec.step, htext, hI.strings_length_eq]
  · intro n id text' hn htext'
    simp only [Spec.step, htext, Option.toList_some] at htext'
    rcases Nat.lt_or_ge n m.strings.length with hlt | hge
    · rw [List.getElem?_append_left hlt] at hn
      rw [List.getElem?_append_left (hI.strings_length_eq ▸ hlt)] at htext'
      rw [List.getElem?_append_left (hI.string_lt (List.mem_of_getElem? hn))]
      exact hI.strings hn htext'
    · rw [List.getElem?_append_right hge, List.getElem?_singleton] at hn
      rw [List.getElem?_append_right (hI.strings_length_eq ▸ hge), List.getElem?_singleton] at htext'
      split_ifs at hn htext'
      obtain rfl := Option.some.inj hn
      obtain rfl := Option.some.inj htext'
      simp
  · intro id hid b' hb' hbuf
    rcases List.mem_append.mp hid with hid | hid
    · exact hI.apart id hid b' hb' hbuf
    · obtain rfl := List.mem_singleton.mp hid
      obtain ⟨j, hj⟩ := List.getElem?_of_mem hb'
      obtain ⟨b₁, _, hb₁, _, hold⟩ := hI.exists_text (List.getElem?_eq_some_iff.mp hj).1
      obtain rfl := Option.some.inj (hb₁.symm.trans hj)
      exact lt_irrefl _ (hold.lt hbuf)

theorem push (hI : Inv m σ) {b : Builder} {text : Bytes} (hholds : Holds m.heap b text)
    (hapart : ∀ id ∈ m.strings, b.buf ≠ some id) :
    Inv { m with builders := m.builders ++ [b] } { σ with texts := σ.texts ++ [text] } where
  length_eq := by simp [hI.length_eq]
  holds {j b' text'} hb' htext' := by
    rcases Nat.lt_or_ge j m.builders.length with hlt | hge
    · rw [List.getElem?_append_left hlt] at hb'
      rw [List.getElem?_append_left (hI.length_eq ▸ hlt)] at htext'
      exact hI.holds hb' htext'
    · rw [List.getElem?_append_right hge, List.getElem?_singleton] at hb'
      rw [List.getElem?_append_right (hI.length_eq ▸ hge), List.getElem?_singleton] at htext'
      split_ifs at hb' htext'
      obtain rfl := Option.some.inj hb'
      obtain rfl := Option.some.inj htext'
      exact hholds
  strings_length_eq := hI.strings_length_eq
  strings := hI.strings
  apart id hid b' hb' := by
    rcases List.mem_append.mp hb' with hb' | hb'
    · exact hI.apart id hid b' hb'
    · obtain rfl := List.mem_singleton.mp hb'
      exact hapart id hid

theorem assign (hI : Inv m σ) {dst src : ℕ} (hsrc : src < m.builders.length) :
    ∃ m', m.step (.assign dst src) = some m' ∧ Inv m' (σ.step (.assign dst src)) := by
  obtain ⟨b, text, hb, htext, hholds⟩ := hI.exists_text hsrc
  have hgetD : σ.texts.getD src [] = text := by simp [htext]
  refine ⟨{ m with builders := m.builders.set dst b }, by simp [Machine.step, hb], ?_⟩
  rw [Spec.step, hgetD]
  exact hI.update hholds (fun _ _ _ => rfl)
    (fun j b₁ b'' text'' _ _ hb'' _ _ htext'' => hI.holds hb'' htext'')
    fun id hid => hI.apart id hid b (List.mem_of_getElem? hb)

theorem step (hI : Inv m σ) {op : Op} (hop : m.Permits op) :
    ∃ m', m.step op = some m' ∧ Inv m' (σ.step op) := by
  cases op with
  | default => exact ⟨_, rfl, hI.push (Holds.default _) fun id _ h => by cases h⟩
  | copy src =>
    obtain ⟨b, text, hb, htext, hholds⟩ := hI.exists_text hop
    refine ⟨{ m with builders := m.builders ++ [b] }, by simp [Machine.step, hb], ?_⟩
    simpa [Spec.step, htext] using
      hI.push hholds fun id hid => hI.apart id hid b (List.mem_of_getElem? hb)
  | assign dst src => exact hI.assign hop.2
  | reserve i extra moves =>
    obtain ⟨m', hm', hR⟩ := hI.reserve hop.1 hop.2 moves
    exact ⟨m', hm', hR.inv⟩
  | append i s moves => exact hI.append moves hop
  | appendChar i c moves => exact hI.appendChar moves hop
  | length i =>
    obtain ⟨b, text, hb, -⟩ := hI.exists_text hop
    exact ⟨m, by simp [Machine.step, Machine.length, hb], hI⟩
  | clear i => exact hI.clear hop
  | toString i => exact hI.toString hop

theorem of_reachable (h : Reachable m σ) : Inv m σ := by
  induction h with
  | start =>
    exact ⟨rfl, fun h => by simp at h, rfl, fun h => by simp at h, fun id hid => by cases hid⟩
  | step _ hop hstep ih =>
    obtain ⟨m', hm', hinv⟩ := ih.step hop
    rwa [Option.some.inj (hm'.symm.trans hstep)] at hinv

end Inv

/-! ### What the program sees -/

/-- The program sees of each builder the text that was appended to it: its length, and a string of
its bytes that ends in a NUL; the strings it has been given are as they were. -/
structure Faithful (m : Machine) (σ : Spec) : Prop where
  length : ∀ i, m.length i = (σ.texts[i]?).map List.length
  toString : ∀ {i : ℕ} {text : Bytes}, σ.texts[i]? = some text → ∃ m', m.toString i = some m' ∧
    m'.strings = m.strings ++ [m.heap.length] ∧
    m'.heap[m.heap.length]? = some (some (text.map some ++ [some 0]))
  strings_length_eq : m.strings.length = σ.strings.length
  strings : ∀ {n id : ℕ} {text : Bytes}, m.strings[n]? = some id → σ.strings[n]? = some text →
    m.heap[id]? = some (some (text.map some ++ [some 0]))

theorem Machine.toString_strings {m m' : Machine} {i : ℕ} (h : m.toString i = some m') :
    m'.strings = m.strings ++ [m.heap.length] := by
  simp only [Machine.toString, Option.bind_eq_bind, Option.bind_eq_some_iff] at h
  obtain ⟨b, -, out, -, out', -, h⟩ := h
  rw [← Option.some.inj h]

theorem Inv.faithful {m : Machine} {σ : Spec} (hI : Inv m σ) : Faithful m σ where
  length i := by
    by_cases hi : i < m.builders.length
    · obtain ⟨b, text, hb, htext, hholds⟩ := hI.exists_text hi
      simp [Machine.length, hb, htext, hholds.len]
    · have hi' : ¬ i < σ.texts.length := hI.length_eq ▸ hi
      simp [Machine.length, List.getElem?_eq_none (not_lt.mp hi),
        List.getElem?_eq_none (not_lt.mp hi')]
  toString {i text} htext := by
    have hi : i < m.builders.length := hI.length_eq ▸ (List.getElem?_eq_some_iff.mp htext).1
    obtain ⟨m', hm', hinv⟩ := hI.toString hi
    have hstrings := Machine.toString_strings hm'
    refine ⟨m', hm', hstrings, hinv.strings (n := m.strings.length) (by simp [hstrings]) ?_⟩
    simp [Spec.step, htext, hI.strings_length_eq]
  strings_length_eq := hI.strings_length_eq
  strings := hI.strings

/-- As long as no call writes over bytes of another builder, or gives back its buffer, every builder
is the concatenation of what was appended to it, every call ends within its buffer, and `reserve`
makes the room that is asked for. -/
theorem copies_faithful {m : Machine} {σ : Spec} (h : Reachable m σ) :
    Faithful m σ ∧ (∀ op, m.Permits op → ∃ m', m.step op = some m') ∧
      ∀ i extra moves, m.Permits (.reserve i extra moves) → ∃ m' b,
        m.reserve i extra moves = some m' ∧ m'.builders[i]? = some b ∧
          b.len + extra + 1 ≤ b.cap := by
  have hI := Inv.of_reachable h
  refine ⟨hI.faithful, fun op hop => (hI.step hop).imp fun _ h => h.1, fun i extra moves hop => ?_⟩
  obtain ⟨m', hm', hR⟩ := hI.reserve hop.1 hop.2 moves
  obtain ⟨-, b, -, hb, -, hroom⟩ := hR.room
  exact ⟨m', b, hm', hb, hroom⟩

/-! ### Two builders with one buffer -/

/-- A buffer of 16 bytes. -/
def bufferOf (text : Bytes) : Option Cells :=
  some (text.map some ++ some 0 :: List.replicate (15 - text.length) none)

/-- `sb.append_char('a'); a = sb; sb.append_char('b');` -/
def shared : Machine := ⟨[bufferOf [97, 98]], [⟨some 0, 2, 16⟩, ⟨some 0, 1, 16⟩], []⟩

/-- Then `a.append_char('c');`. -/
def overwritten : Machine := ⟨[bufferOf [97, 99]], [⟨some 0, 2, 16⟩, ⟨some 0, 2, 16⟩], []⟩

theorem reserve_first (b : Builder) (hb : b = {}) :
    (⟨[], [b], []⟩ : Machine).reserve 0 1 false =
      some ⟨[some (some 0 :: List.replicate 15 none)], [⟨some 0, 0, 16⟩], []⟩ := by
  subst hb
  have hdouble : ∀ h, BuilderBuffer.double 2 16 h = 16 := fun h => by
    rw [BuilderBuffer.double]
    rfl
  simp only [Machine.reserve, List.getElem?_cons_zero, Option.bind_eq_bind, Option.bind_some]
  rw [if_neg (by decide), if_pos trivial]
  simp only [Nat.zero_add, Nat.reduceAdd, Nat.zero_max, hdouble]
  rfl

/-- No other builder holds the buffer of the only one. -/
theorem sharers_singleton {m : Machine} {b : Builder} {P : Builder → Prop} (hm : m.builders = [b]) :
    m.Sharers 0 P := by
  intro j b₁ b₂ hj _ hb₂
  rw [hm, List.getElem?_singleton, if_neg hj] at hb₂
  cases hb₂

theorem reachable_shared : Reachable shared ⟨[[97, 98], [97]], []⟩ := by
  have hdefault : Reachable ⟨[], [{}], []⟩ ⟨[[]], []⟩ :=
    Reachable.start.step (show Machine.Permits {} .default from trivial) rfl
  have hstep : (⟨[], [{}], []⟩ : Machine).step (.appendChar 0 97 false) =
      some ⟨[bufferOf [97]], [⟨some 0, 1, 16⟩], []⟩ := by
    simp only [Machine.step, Machine.appendChar, reserve_first _ rfl]
    rfl
  have hfirst : Reachable ⟨[bufferOf [97]], [⟨some 0, 1, 16⟩], []⟩ ⟨[[97]], []⟩ :=
    hdefault.step (show Machine.Permits _ (.appendChar 0 97 false) from
      ⟨Nat.one_pos, fun _ _ => .inr (sharers_singleton rfl), fun _ _ => sharers_singleton rfl⟩)
      hstep
  have hcopy : Reachable ⟨[bufferOf [97]], [⟨some 0, 1, 16⟩, ⟨some 0, 1, 16⟩], []⟩
      ⟨[[97], [97]], []⟩ :=
    hfirst.step (show Machine.Permits _ (.copy 0) from Nat.one_pos) rfl
  refine hcopy.step (show Machine.Permits _ (.appendChar 0 98 false) from
    ⟨Nat.two_pos, ?_, ?_⟩) rfl
  · intro b hb
    obtain rfl := Option.some.inj hb
    exact .inl (by decide)
  · intro b hb j b₁ b₂ hj hb₁ hb₂ _ _
    obtain rfl := Option.some.inj hb
    obtain _ | _ | j := j
    · exact absurd rfl hj
    · obtain rfl := Option.some.inj hb₂
      exact le_rfl
    · cases hb₂

theorem copies_faithful_shared : Faithful shared ⟨[[97, 98], [97]], []⟩ :=
  (copies_faithful reachable_shared).1

/-- Both builders now hold the bytes of the copy. -/
theorem overwritten_inv : Inv overwritten ⟨[[97, 99], [97, 99]], []⟩ := by
  have hholds : ∀ b, b = (⟨some 0, 2, 16⟩ : Builder) → Holds overwritten.heap b [97, 99] := by
    rintro b rfl
    exact ⟨rfl, .inr ⟨0, some 0 :: List.replicate 13 none, rfl, rfl, rfl, by simp⟩⟩
  refine ⟨rfl, fun {i b text} hb htext => ?_, rfl, fun h => (by cases h), fun _ h => (by cases h)⟩
  obtain _ | _ | i := i
  · obtain rfl := Option.some.inj htext
    exact hholds b (Option.some.inj hb).symm
  · obtain rfl := Option.some.inj htext
    exact hholds b (Option.some.inj hb).symm
  · cases hb

/-- An append to the copy writes over the byte that the builder appended after it was copied. -/
theorem not_faithful_overwritten : Reachable shared ⟨[[97, 98], [97]], []⟩ ∧
    shared.step (.appendChar 1 99 false) = some overwritten ∧
    ¬ Faithful overwritten ⟨[[97, 98], [97, 99]], []⟩ := by
  refine ⟨reachable_shared, rfl, fun h => ?_⟩
  obtain ⟨m, hm, -, hcells⟩ := h.toString (i := 0) rfl
  obtain ⟨m', hm', -, hcells'⟩ := overwritten_inv.faithful.toString (i := 0) rfl
  obtain rfl := Option.some.inj (hm.symm.trans hm')
  have hsame := hcells.symm.trans hcells'
  simp at hsame

end Copies

end TurfLang.Strings
