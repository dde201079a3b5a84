import TurfLang.Std.Queue.Header

/-!
# `lib/std/collections/list.tr` and `stack.tr`: `List<T>` and `Stack<T>`

Both are handles to a header that points to a buffer, and their common operations are the same
code; only the texts of the panics differ. The buffers are those of a queue, and a header stands
for the list that it would stand for as a queue with its head at cell 0. A result of `none` is an
access outside a buffer, through a null pointer or of a cell that was never written. An index is
an `int`; the sizes are natural numbers.
-/

namespace TurfLang.Handles

open Queue (Buffers gcAlloc gcRealloc Holds Changes)

/-- `ListHeader` and `StackHeader`, with the values of `default()`. -/
structure Header where
  data : Option ℕ := none
  len : ℕ := 0
  cap : ℕ := 0
  deriving DecidableEq

/-- The header as that of a queue. -/
@[simps] def Header.asQueue (h : Header) : Queue.Header := ⟨h.data, h.len, h.cap, 0⟩

variable {T : Type}

/-! ### The operations -/

/-- `self.h.data[i]`. -/
def readAt (bufs : Buffers T) (h : Header) (i : ℤ) : Option T :=
  if 0 ≤ i then Queue.readAt bufs h.asQueue i.toNat else none

/-- `self.h.data[i] = v`. -/
def writeAt (bufs : Buffers T) (h : Header) (i : ℤ) (v : T) : Option (Buffers T) :=
  if 0 ≤ i then Queue.writeAt bufs h.asQueue i.toNat v else none

/-- What `push` does first: it grows a buffer that is full. -/
def makeRoom (moves : Buffers T → Bool) (bufs : Buffers T) (h : Header) :
    Option (Buffers T × Header) :=
  if h.len = h.cap then
    let cap := if h.cap = 0 then 8 else h.cap * 2
    match h.data with
    | none =>
      let (bufs, data) := gcAlloc bufs cap
      some (bufs, { h with cap, data := some data })
    | some a => do
      let (bufs, data) ← gcRealloc moves bufs a cap
      some (bufs, { h with cap, data := some data })
  else some (bufs, h)

/-- `List.push` and `Stack.push`. -/
def push (moves : Buffers T → Bool) (bufs : Buffers T) (h : Header) (item : T) :
    Option (Buffers T × Header) := do
  let (bufs, h) ← makeRoom moves bufs h
  let bufs ← writeAt bufs h h.len item
  some (bufs, { h with len := h.len + 1 })

/-- What a call answers. The text of a panic is given without the place of the call. -/
inductive Answer (T : Type)
  | done
  | item (x : T)
  | int (n : ℤ)
  | panic (text : String)

/-- Which of the two a handle is. -/
inductive Kind
  | list
  | stack
  deriving DecidableEq

/-- The panic of `pop`. -/
def Kind.popText : Kind → String
  | .list => "List.pop: pop on empty list"
  | .stack => "Stack.pop: pop on empty stack"

/-- `List.pop` and `Stack.pop`. -/
def pop (kind : Kind) (bufs : Buffers T) (h : Header) : Option (Answer T × Header) :=
  if h.len = 0 then some (.panic kind.popText, h)
  else do
    let h := { h with len := h.len - 1 }
    let item ← readAt bufs h h.len
    some (.item item, h)

/-- `Stack.peek`. -/
def peek (bufs : Buffers T) (h : Header) : Option (Answer T) :=
  if h.len = 0 then some (.panic "Stack.peek: peek on empty stack")
  else do
    let item ← readAt bufs h ((h.len : ℤ) - 1)
    some (.item item)

/-- `List.get`. -/
def get (bufs : Buffers T) (h : Header) (i : Int64) : Option (Answer T) :=
  if i.toInt < 0 ∨ i.toInt ≥ h.len then some (.panic "List.get: index out of bounds")
  else do
    let item ← readAt bufs h i.toInt
    some (.item item)

/-- `List.set`. -/
def set (bufs : Buffers T) (h : Header) (i : Int64) (value : T) : Option (Answer T × Buffers T) :=
  if i.toInt < 0 ∨ i.toInt ≥ h.len then some (.panic "List.set: index out of bounds", bufs)
  else do
    let bufs ← writeAt bufs h i.toInt value
    some (.done, bufs)

/-- The position that an index between brackets names: a negative one counts from the end. -/
def wrap (h : Header) (i : Int64) : ℤ := if i.toInt < 0 then i.toInt + h.len else i.toInt

/-- `operator<T> []`. -/
def index (bufs : Buffers T) (h : Header) (i : Int64) : Option (Answer T) :=
  let idx := wrap h i
  if idx < 0 ∨ idx ≥ h.len then some (.panic "List[]: index out of bounds")
  else do
    let item ← readAt bufs h idx
    some (.item item)

/-- `operator<T> []=`. -/
def setIndex (bufs : Buffers T) (h : Header) (i : Int64) (value : T) :
    Option (Answer T × Buffers T) :=
  let idx := wrap h i
  if idx < 0 ∨ idx ≥ h.len then some (.panic "List[]=: index out of bounds", bufs)
  else do
    let bufs ← writeAt bufs h idx value
    some (.done, bufs)

/-- The loop of `List.find`. -/
def findLoop (bufs : Buffers T) (h : Header) (predicate : T → Bool) (i : ℕ) : Option ℤ :=
  if i < h.len then do
    let x ← readAt bufs h i
    if predicate x then some i else findLoop bufs h predicate (i + 1)
  else some (-1)
termination_by h.len - i

/-- `List.find`. -/
def find (bufs : Buffers T) (h : Header) (predicate : T → Bool) : Option ℤ :=
  findLoop bufs h predicate 0

/-- The loop of `copy`, with the new header. -/
def copyLoop (moves : Buffers T → Bool) (self : Header) (bufs : Buffers T) (out : Header) (i : ℕ) :
    Option (Buffers T × Header) :=
  if i < self.len then do
    let x ← readAt bufs self i
    let (bufs, out) ← push moves bufs out x
    copyLoop moves self bufs out (i + 1)
  else some (bufs, out)
termination_by self.len - i

/-- `List.copy` and `Stack.copy`, with the header of the copy. -/
def copy (moves : Buffers T → Bool) (bufs : Buffers T) (self : Header) :
    Option (Buffers T × Header) :=
  copyLoop moves self bufs {} 0

/-! ### What one call does to the list of a header -/

variable {moves : Buffers T → Bool} {bufs : Buffers T} {h : Header} {xs : List T}

theorem readAt_spec (hxs : Holds bufs h.asQueue xs) {i : ℕ} {x : T} (hx : xs[i]? = some x) :
    readAt bufs h i = some x := by
  have hread := hxs.readAt hx
  rw [Header.asQueue_head, Nat.zero_add] at hread
  rw [readAt, if_pos (Int.natCast_nonneg i), Int.toNat_natCast, hread]

/-- An element is written over another. -/
theorem writeAt_spec (hxs : Holds bufs h.asQueue xs) {i : ℕ} (hi : i < xs.length) (v : T) :
    ∃ bufs', writeAt bufs h i v = some bufs' ∧ Holds bufs' h.asQueue (xs.set i v) ∧
      Changes bufs h.asQueue bufs' h.asQueue := by
  obtain ⟨hcap, -⟩ | ⟨a, cells, hdata, hbuf, hlen, hcells⟩ := hxs.cells
  · have := hxs.len
    have := hxs.room
    simp only [Header.asQueue_len, Header.asQueue_cap] at *
    omega
  · have hlt : i < cells.length := by
      have hcell := hcells i _ (List.getElem?_eq_getElem hi)
      rw [Header.asQueue_head, Nat.zero_add] at hcell
      exact (List.getElem?_eq_some_iff.mp hcell).1
    obtain ⟨hblt, -⟩ := List.getElem?_eq_some_iff.mp hbuf
    refine ⟨bufs.set a (cells.set i (some v)), ?_, ⟨by rw [List.length_set, hxs.len], hxs.room,
      .inr ⟨a, cells.set i (some v), hdata, List.getElem?_set_self hblt,
        by rw [List.length_set, hlen], fun j x hx => ?_⟩⟩, .set hdata _ rfl⟩
    · rw [writeAt, if_pos (Int.natCast_nonneg i), Int.toNat_natCast, Queue.writeAt_eq hdata hbuf hlt]
    · rw [Header.asQueue_head, Nat.zero_add]
      by_cases hji : j = i
      · subst hji
        rw [List.getElem?_set_self hi] at hx
        rw [List.getElem?_set_self hlt, ← hx]
      · rw [List.getElem?_set_ne (Ne.symm hji)] at hx ⊢
        have hcell := hcells j x hx
        rwa [Header.asQueue_head, Nat.zero_add] at hcell

/-- A pop leaves the elements before the last one; its cell stays as it is. -/
theorem Holds.dropLast {x : T} (hxs : Holds bufs h.asQueue (xs ++ [x])) :
    Holds bufs ({ h with len := h.len - 1 } : Header).asQueue xs := by
  have hlen : h.len = xs.length + 1 := by simpa using hxs.len
  have hroom : 0 + h.len ≤ h.cap := hxs.room
  refine ⟨by simp [hlen], by simp; omega, ?_⟩
  obtain hnull | ⟨a, cells, hdata, hbuf, hcap, hcells⟩ := hxs.cells
  · exact .inl hnull
  · refine .inr ⟨a, cells, hdata, hbuf, hcap, fun i y hy => hcells i y ?_⟩
    rw [List.getElem?_append_left (List.getElem?_eq_some_iff.mp hy).1, hy]

end TurfLang.Handles
