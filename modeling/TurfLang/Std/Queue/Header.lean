import Mathlib.Tactic

/-!
# `lib/std/collections/queue.tr`: `Queue<T>`

A queue is a handle to a `QueueHeader`, and its elements are in a buffer that the header points to.
The buffers are kept apart from the headers, by address; a cell that was never written holds nothing
that can be read. A result of `none` is an access outside a buffer, through a null pointer or of
such a cell. The sizes are natural numbers.
-/

namespace TurfLang.Queue

/-- The buffers, each as its cells. -/
abbrev Buffers (T : Type) := List (List (Option T))

/-- `QueueHeader`, with the values that `Queue::default()` gives it. -/
structure Header where
  data : Option ℕ := none
  len : ℕ := 0
  cap : ℕ := 0
  head : ℕ := 0
  deriving DecidableEq

variable {T : Type}

/-! ### Memory -/

/-- `self.h.data[i]`. -/
def readAt (bufs : Buffers T) (h : Header) (i : ℕ) : Option T := do
  let a ← h.data
  let cells ← bufs[a]?
  let cell ← cells[i]?
  cell

/-- `self.h.data[i] = v`. -/
def writeAt (bufs : Buffers T) (h : Header) (i : ℕ) (v : T) : Option (Buffers T) := do
  let a ← h.data
  let cells ← bufs[a]?
  if i < cells.length then some (bufs.set a (cells.set i (some v))) else none

/-- `gc_alloc` of `n` cells. -/
def gcAlloc (bufs : Buffers T) (n : ℕ) : Buffers T × ℕ :=
  (bufs ++ [List.replicate n none], bufs.length)

/-- `gc_realloc` to `n` cells, which moves the buffer or leaves it where it is. -/
def gcRealloc (moves : Buffers T → Bool) (bufs : Buffers T) (a n : ℕ) :
    Option (Buffers T × ℕ) := do
  let cells ← bufs[a]?
  let grown := cells.take n ++ List.replicate (n - cells.length) none
  if moves bufs then some (bufs.set a [] ++ [grown], bufs.length)
  else some (bufs.set a grown, a)

/-! ### The operations -/

/-- The loop that moves the elements to the front of the buffer. -/
def compact (h : Header) (bufs : Buffers T) (i : ℕ) : Option (Buffers T) :=
  if i < h.len then do
    let x ← readAt bufs h (h.head + i)
    let bufs ← writeAt bufs h i x
    compact h bufs (i + 1)
  else some bufs
termination_by h.len - i

/-- What `enqueue` does when the last cell is taken: it moves the elements to the front, or grows
the buffer. -/
def makeRoom (moves : Buffers T → Bool) (bufs : Buffers T) (h : Header) :
    Option (Buffers T × Header) :=
  if h.head + h.len = h.cap then
    if h.head > 0 then do
      let bufs ← compact h bufs 0
      some (bufs, { h with head := 0 })
    else if h.cap = 0 then
      let cap := 8
      let (bufs, data) := gcAlloc bufs cap
      some (bufs, { h with cap, data := some data })
    else do
      let cap := h.cap * 2
      let a ← h.data
      let (bufs, data) ← gcRealloc moves bufs a cap
      some (bufs, { h with cap, data := some data })
  else some (bufs, h)

/-- `enqueue`. -/
def enqueue (moves : Buffers T → Bool) (bufs : Buffers T) (h : Header) (item : T) :
    Option (Buffers T × Header) := do
  let (bufs, h) ← makeRoom moves bufs h
  let bufs ← writeAt bufs h (h.head + h.len) item
  some (bufs, { h with len := h.len + 1 })

/-- What a call answers. The text of a panic is given without the place of the call. -/
inductive Answer (T : Type)
  | done
  | item (x : T)
  | length (n : ℕ)
  | queue (handle : ℕ)
  | panic (text : String)

/-- `dequeue`. -/
def dequeue (bufs : Buffers T) (h : Header) : Option (Answer T × Header) :=
  if h.len = 0 then some (.panic "Queue.dequeue: dequeue on empty queue", h)
  else do
    let item ← readAt bufs h h.head
    some (.item item, { h with head := h.head + 1, len := h.len - 1 })

/-- `peek`. -/
def peek (bufs : Buffers T) (h : Header) : Option (Answer T) :=
  if h.len = 0 then some (.panic "Queue.peek: peek on empty queue")
  else do
    let item ← readAt bufs h h.head
    some (.item item)

/-- The loop of `copy`, with the new queue's header. -/
def copyLoop (moves : Buffers T → Bool) (self : Header) (bufs : Buffers T) (out : Header) (i : ℕ) :
    Option (Buffers T × Header) :=
  if i < self.len then do
    let x ← readAt bufs self (self.head + i)
    let (bufs, out) ← enqueue moves bufs out x
    copyLoop moves self bufs out (i + 1)
  else some (bufs, out)
termination_by self.len - i

/-- `copy`, with the header of the copy. -/
def copy (moves : Buffers T → Bool) (bufs : Buffers T) (self : Header) :
    Option (Buffers T × Header) :=
  copyLoop moves self bufs {} 0

/-! ### A header and the list it stands for -/

/-- The elements that a header stands for are in its buffer, from `head` on. -/
structure Holds (bufs : Buffers T) (h : Header) (xs : List T) : Prop where
  len : h.len = xs.length
  room : h.head + h.len ≤ h.cap
  cells : h.cap = 0 ∧ h.data = none ∨
    ∃ a cells, h.data = some a ∧ bufs[a]? = some cells ∧ cells.length = h.cap ∧
      ∀ i x, xs[i]? = some x → cells[h.head + i]? = some (some x)

/-- Only the buffer of `h` and new ones differ, and `h'` has one of these. -/
structure Changes (bufs : Buffers T) (h : Header) (bufs' : Buffers T) (h' : Header) : Prop where
  length_le : bufs.length ≤ bufs'.length
  frame : ∀ b < bufs.length, h.data ≠ some b → bufs'[b]? = bufs[b]?
  data : ∀ a, h'.data = some a → h.data = some a ∨ bufs.length ≤ a

variable {moves : Buffers T → Bool} {bufs bufs' bufs'' : Buffers T} {h h' h'' : Header} {xs : List T}

theorem Changes.refl (bufs : Buffers T) (h : Header) : Changes bufs h bufs h :=
  ⟨le_rfl, fun _ _ _ => rfl, fun _ ha => .inl ha⟩

theorem Changes.trans (h₁ : Changes bufs h bufs' h') (h₂ : Changes bufs' h' bufs'' h'') :
    Changes bufs h bufs'' h'' := by
  refine ⟨h₁.length_le.trans h₂.length_le, fun b hb hne => ?_, fun a ha => ?_⟩
  · rw [h₂.frame b (hb.trans_le h₁.length_le), h₁.frame b hb hne]
    intro hb'
    obtain hold | hnew := h₁.data b hb'
    · exact hne hold
    · omega
  · obtain hold | hnew := h₂.data a ha
    · exact h₁.data a hold
    · exact .inr (h₁.length_le.trans hnew)

/-- A change at one place of one buffer. -/
theorem Changes.set {a : ℕ} (ha : h.data = some a) (cells : List (Option T))
    (hdata : h'.data = h.data) : Changes bufs h (bufs.set a cells) h' := by
  refine ⟨by simp, fun b _ hne => List.getElem?_set_ne ?_, fun b hb => .inl (hdata ▸ hb)⟩
  rintro rfl
  exact hne ha

/-- A header's list does not depend on the buffers of others. -/
theorem Holds.frame {g g' : Header} (hxs : Holds bufs h xs) (hch : Changes bufs g bufs' g')
    (hne : ∀ a, h.data = some a → g.data ≠ some a) : Holds bufs' h xs := by
  refine ⟨hxs.len, hxs.room, ?_⟩
  obtain hnull | ⟨a, cells, hdata, hbuf, hlen, hcells⟩ := hxs.cells
  · exact .inl hnull
  · obtain ⟨hlt, -⟩ := List.getElem?_eq_some_iff.mp hbuf
    refine .inr ⟨a, cells, hdata, ?_, hlen, hcells⟩
    rw [hch.frame a hlt (hne a hdata), hbuf]

theorem Holds.data_lt (hxs : Holds bufs h xs) {a : ℕ} (ha : h.data = some a) : a < bufs.length := by
  obtain ⟨-, hnull⟩ | ⟨a', cells, hdata, hbuf, -⟩ := hxs.cells
  · rw [hnull] at ha
    cases ha
  · obtain rfl : a' = a := by simpa [hdata] using ha
    exact (List.getElem?_eq_some_iff.mp hbuf).1

theorem holds_default (bufs : Buffers T) : Holds bufs {} [] := ⟨rfl, le_rfl, .inl ⟨rfl, rfl⟩⟩

theorem writeAt_eq {a i : ℕ} {cells : List (Option T)} (hdata : h.data = some a)
    (hbuf : bufs[a]? = some cells) (hi : i < cells.length) (v : T) :
    writeAt bufs h i v = some (bufs.set a (cells.set i (some v))) := by
  simp [writeAt, hdata, hbuf, hi]

theorem readAt_eq {a i : ℕ} {cells : List (Option T)} {x : T} (hdata : h.data = some a)
    (hbuf : bufs[a]? = some cells) (hi : cells[i]? = some (some x)) : readAt bufs h i = some x := by
  simp [readAt, hdata, hbuf, hi]

/-- The elements of a queue can be read. -/
theorem Holds.readAt (hxs : Holds bufs h xs) {i : ℕ} {x : T} (hx : xs[i]? = some x) :
    readAt bufs h (h.head + i) = some x := by
  obtain ⟨hcap, -⟩ | ⟨a, cells, hdata, hbuf, -, hcells⟩ := hxs.cells
  · obtain ⟨hi, -⟩ := List.getElem?_eq_some_iff.mp hx
    have := hxs.len
    have := hxs.room
    omega
  · exact readAt_eq hdata hbuf (hcells i x hx)

/-- An element is written into the cell behind the last one. -/
theorem Holds.append (hxs : Holds bufs h xs) (hlast : h.head + h.len < h.cap) (item : T) :
    ∃ bufs', writeAt bufs h (h.head + h.len) item = some bufs' ∧
      Holds bufs' { h with len := h.len + 1 } (xs ++ [item]) ∧
      Changes bufs h bufs' { h with len := h.len + 1 } := by
  obtain ⟨hcap, -⟩ | ⟨a, cells, hdata, hbuf, hlen, hcells⟩ := hxs.cells
  · omega
  · obtain ⟨hlt, -⟩ := List.getElem?_eq_some_iff.mp hbuf
    refine ⟨bufs.set a (cells.set (h.head + h.len) (some item)),
      writeAt_eq hdata hbuf (by omega) item, ⟨by simp [hxs.len], ?_,
      .inr ⟨a, cells.set (h.head + h.len) (some item), hdata,
      List.getElem?_set_self hlt, by rw [List.length_set, hlen], fun i x hx => ?_⟩⟩,
      .set hdata _ rfl⟩
    · show h.head + (h.len + 1) ≤ h.cap
      omega
    · show (cells.set (h.head + h.len) (some item))[h.head + i]? = some (some x)
      rcases lt_or_ge i xs.length with hi | hi
      · rw [List.getElem?_append_left hi] at hx
        rw [List.getElem?_set_ne (by have := hxs.len; omega)]
        exact hcells i x hx
      · obtain ⟨hi', hget⟩ := List.getElem?_eq_some_iff.mp hx
        obtain rfl : i = h.len := by
          rw [List.length_append, List.length_singleton] at hi'
          have := hxs.len
          omega
        rw [List.getElem?_set_self (by omega), ← hget, List.getElem_append_right hi]
        simp

end TurfLang.Queue
