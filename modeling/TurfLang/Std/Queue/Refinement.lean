import TurfLang.Std.Queue.Header

/-!
# `Queue<T>` refines a first-in first-out list

The specification is a list: `enqueue` puts an element last, `dequeue` takes the first one off. A
program holds handles to any number of queues. Whatever it does through them, it gets the answers
of the lists, each changed by the calls on its own queue alone.
-/

namespace TurfLang.Queue

variable {T : Type} {moves : Buffers T → Bool} {bufs : Buffers T} {h : Header} {xs : List T}

/-! ### One call -/

/-- Each turn of `compact` moves the next element to its place. The elements that are still to be
moved lie past the place it is moved to. -/
theorem compact_spec {a : ℕ} (hdata : h.data = some a) (hhead : 0 < h.head)
    (hlen : h.len = xs.length) : ∀ (n i : ℕ) (bufs : Buffers T) (cells : List (Option T)),
    h.len - i = n → i ≤ h.len → bufs[a]? = some cells →
    (∀ (j : ℕ) x, xs[j]? = some x → j < i → cells[j]? = some (some x)) →
    (∀ (j : ℕ) x, xs[j]? = some x → i ≤ j → cells[h.head + j]? = some (some x)) →
    ∃ cells' : List (Option T), compact h bufs i = some (bufs.set a cells') ∧
      cells'.length = cells.length ∧ ∀ (j : ℕ) x, xs[j]? = some x → cells'[j]? = some (some x) := by
  intro n
  induction n with
  | zero =>
    intro i bufs cells hn hi hbuf hdone _
    refine ⟨cells, ?_, rfl, fun j x hx => hdone j x hx ?_⟩
    · obtain ⟨hlt, hget⟩ := List.getElem?_eq_some_iff.mp hbuf
      rw [compact, if_neg (by omega), ← hget, List.set_getElem_self]
    · obtain ⟨hj, -⟩ := List.getElem?_eq_some_iff.mp hx
      omega
  | succ n ih =>
    intro i bufs cells hn hi hbuf hdone htodo
    have hlt : i < xs.length := by omega
    have hx : xs[i]? = some xs[i] := List.getElem?_eq_getElem hlt
    have hsrc := htodo i _ hx le_rfl
    obtain ⟨hsrclt, -⟩ := List.getElem?_eq_some_iff.mp hsrc
    have hread := readAt_eq hdata hbuf hsrc
    have hwrite := writeAt_eq hdata hbuf (i := i) (by omega) xs[i]
    obtain ⟨hbuflt, -⟩ := List.getElem?_eq_some_iff.mp hbuf
    obtain ⟨cells', hcompact, hlen', hcells'⟩ := ih (i + 1) (bufs.set a (cells.set i (some xs[i])))
      (cells.set i (some xs[i])) (by omega) (by omega) (List.getElem?_set_self hbuflt)
      (fun j y hy hj => by
        by_cases hji : j = i
        · subst hji
          rw [List.getElem?_set_self (by omega), ← hx, hy]
        · rw [List.getElem?_set_ne (by omega)]
          exact hdone j y hy (by omega))
      (fun j y hy hj => by
        rw [List.getElem?_set_ne (by omega)]
        exact htodo j y hy (by omega))
    rw [List.set_set] at hcompact
    refine ⟨cells', ?_, by rw [hlen', List.length_set], hcells'⟩
    rw [compact, if_pos (by omega)]
    simp only [hread, hwrite, Option.bind_eq_bind, Option.bind_some]
    exact hcompact

/-- The first buffer of a queue. -/
theorem holds_gcAlloc (bufs : Buffers T) {n : ℕ} (hnil : h.head + h.len = 0) :
    Holds (gcAlloc bufs n).1 { h with cap := n, data := some (gcAlloc bufs n).2 } [] ∧
      Changes bufs h (gcAlloc bufs n).1 { h with cap := n, data := some (gcAlloc bufs n).2 } := by
  unfold gcAlloc
  refine ⟨⟨by simp; omega, by simp; omega, .inr ⟨bufs.length, List.replicate n none, rfl, by simp,
    by simp, by simp⟩⟩, by simp, fun b hb _ => List.getElem?_append_left hb, fun a ha => ?_⟩
  exact .inr (Option.some.inj ha).le

/-- A buffer that is full from its first cell on grows. -/
theorem holds_gcRealloc (moves : Buffers T → Bool) (hxs : Holds bufs h xs) {a n : ℕ}
    (hdata : h.data = some a) (hn : h.cap ≤ n) :
    ∃ bufs' a', gcRealloc moves bufs a n = some (bufs', a') ∧
      Holds bufs' { h with cap := n, data := some a' } xs ∧
      Changes bufs h bufs' { h with cap := n, data := some a' } := by
  obtain ⟨-, hnull⟩ | ⟨a', cells, hdata', hbuf, hlen, hcells⟩ := hxs.cells
  · rw [hnull] at hdata
    cases hdata
  · obtain rfl : a' = a := by simpa [hdata'] using hdata
    obtain ⟨hlt, -⟩ := List.getElem?_eq_some_iff.mp hbuf
    have htake : cells.take n = cells := List.take_of_length_le (by omega)
    have hroom : h.head + h.len ≤ n := hxs.room.trans hn
    have hgrown : (cells ++ List.replicate (n - cells.length) (none : Option T)).length = n := by
      simp
      omega
    have hkept : ∀ (i : ℕ) x, xs[i]? = some x →
        (cells ++ List.replicate (n - cells.length) none)[h.head + i]? = some (some x) := by
      intro i x hx
      rw [List.getElem?_append_left, hcells i x hx]
      exact (List.getElem?_eq_some_iff.mp (hcells i x hx)).1
    simp only [gcRealloc, hbuf, htake, Option.bind_eq_bind, Option.bind_some]
    cases moves bufs with
    | true =>
      refine ⟨_, _, rfl, ⟨hxs.len, hroom, .inr ⟨bufs.length, _, rfl, ?_, hgrown, hkept⟩⟩,
        by simp, fun b hb hne => ?_, fun b hb => .inr (Option.some.inj hb).le⟩
      · simp
      · rw [List.getElem?_append_left (by simpa using hb), List.getElem?_set_ne]
        rintro rfl
        exact hne hdata
    | false =>
      refine ⟨_, _, rfl, ⟨hxs.len, hroom, .inr ⟨a', _, rfl, ?_, hgrown, hkept⟩⟩, ?_⟩
      · exact List.getElem?_set_self hlt
      · exact .set hdata _ hdata.symm

/-- After `makeRoom` the header stands for the same list, and the cell behind it is in its
buffer. -/
theorem makeRoom_spec (moves : Buffers T → Bool) (hxs : Holds bufs h xs) :
    ∃ bufs' h', makeRoom moves bufs h = some (bufs', h') ∧ Holds bufs' h' xs ∧
      h'.head + h'.len < h'.cap ∧ Changes bufs h bufs' h' := by
  unfold makeRoom
  have hroom := hxs.room
  by_cases hfull : h.head + h.len = h.cap
  · rw [if_pos hfull]
    obtain ⟨hcap, hnull⟩ | ⟨a, cells, hdata, hbuf, hlen, hcells⟩ := hxs.cells
    · -- There is no buffer yet.
      have hnil : xs = [] := by
        rw [← List.length_eq_zero_iff, ← hxs.len]
        omega
      subst hnil
      rw [if_neg (by omega), if_pos hcap]
      obtain ⟨hxs', hch⟩ := holds_gcAlloc (h := h) bufs (n := 8) (by omega)
      exact ⟨_, _, rfl, hxs', by simp; omega, hch⟩
    · by_cases hhead : h.head > 0
      · obtain ⟨cells', hcompact, hlen', hcells'⟩ := compact_spec hdata hhead hxs.len _ 0 bufs cells
          rfl (by omega) hbuf (fun j x _ hj => absurd hj (by omega)) (fun j x hx _ => hcells j x hx)
        obtain ⟨hlt, -⟩ := List.getElem?_eq_some_iff.mp hbuf
        rw [if_pos hhead]
        simp only [hcompact, Option.bind_eq_bind, Option.bind_some]
        refine ⟨_, _, rfl, ⟨hxs.len, by simp; omega, .inr ⟨a, cells', hdata, ?_, ?_, ?_⟩⟩, ?_, ?_⟩
        · exact List.getElem?_set_self hlt
        · rw [hlen', hlen]
        · simpa using hcells'
        · simp
          omega
        · exact .set hdata cells' rfl
      · rw [if_neg hhead]
        by_cases hcap : h.cap = 0
        · have hnil : xs = [] := by
            rw [← List.length_eq_zero_iff, ← hxs.len]
            omega
          subst hnil
          rw [if_pos hcap]
          obtain ⟨hxs', hch⟩ := holds_gcAlloc (h := h) bufs (n := 8) (by omega)
          exact ⟨_, _, rfl, hxs', by simp; omega, hch⟩
        · obtain ⟨bufs', a', hrealloc, hxs', hch⟩ :=
            holds_gcRealloc moves hxs hdata (n := h.cap * 2) (by omega)
          rw [if_neg hcap]
          simp only [hdata, hrealloc, Option.bind_eq_bind, Option.bind_some]
          exact ⟨_, _, rfl, hxs', by simp; omega, hch⟩
  · rw [if_neg hfull]
    exact ⟨bufs, h, rfl, hxs, by omega, .refl bufs h⟩

theorem enqueue_spec (moves : Buffers T → Bool) (hxs : Holds bufs h xs) (item : T) :
    ∃ bufs' h', enqueue moves bufs h item = some (bufs', h') ∧ Holds bufs' h' (xs ++ [item]) ∧
      Changes bufs h bufs' h' := by
  obtain ⟨bufs', h', hmake, hxs', hlast, hch⟩ := makeRoom_spec moves hxs
  obtain ⟨bufs'', hwrite, hxs'', hch'⟩ := hxs'.append hlast item
  refine ⟨bufs'', { h' with len := h'.len + 1 }, ?_, hxs'', hch.trans hch'⟩
  simp only [enqueue, hmake, hwrite, Option.bind_eq_bind, Option.bind_some]

/-- A dequeue takes the first element off. -/
theorem Holds.tail {x : T} (hxs : Holds bufs h (x :: xs)) :
    Holds bufs { h with head := h.head + 1, len := h.len - 1 } xs := by
  have hlen := hxs.len
  have hroom := hxs.room
  rw [List.length_cons] at hlen
  refine ⟨by simp [hlen], by simp; omega, ?_⟩
  obtain ⟨hcap, hnull⟩ | ⟨a, cells, hdata, hbuf, hlen', hcells⟩ := hxs.cells
  · exact .inl ⟨hcap, hnull⟩
  · refine .inr ⟨a, cells, hdata, hbuf, hlen', fun i y hy => ?_⟩
    have hcell := hcells (i + 1) y (by simpa using hy)
    rwa [← Nat.add_assoc, Nat.add_right_comm] at hcell

/-- Each turn of `copy` appends the next element to the new queue. -/
theorem copyLoop_spec (moves : Buffers T → Bool) {self : Header} : ∀ (n i : ℕ) (bufs : Buffers T)
    (out : Header), self.len - i = n → i ≤ self.len → Holds bufs self xs →
    Holds bufs out (xs.take i) → (∀ a, self.data = some a → out.data ≠ some a) →
    ∃ bufs' out', copyLoop moves self bufs out i = some (bufs', out') ∧ Holds bufs' out' xs ∧
      Changes bufs out bufs' out' := by
  intro n
  induction n with
  | zero =>
    intro i bufs out hn hi hself hout _
    refine ⟨bufs, out, by rw [copyLoop, if_neg (by omega)], ?_, .refl bufs out⟩
    rwa [List.take_of_length_le (by have := hself.len; omega)] at hout
  | succ n ih =>
    intro i bufs out hn hi hself hout hne
    have hlt : i < xs.length := by
      have := hself.len
      omega
    have hread := hself.readAt (List.getElem?_eq_getElem hlt)
    obtain ⟨bufs', out', henq, hout', hch⟩ := enqueue_spec moves hout xs[i]
    rw [List.take_append_getElem hlt] at hout'
    obtain ⟨bufs'', out'', hloop, hxs'', hch'⟩ := ih (i + 1) bufs' out' (by omega) (by omega)
      (hself.frame hch hne) hout' (fun a ha hout => by
        obtain hold | hnew := hch.data a hout
        · exact hne a ha hold
        · exact absurd (hself.data_lt ha) (by omega))
    refine ⟨bufs'', out'', ?_, hxs'', hch.trans hch'⟩
    rw [copyLoop, if_pos (by omega)]
    simp only [hread, henq, Option.bind_eq_bind, Option.bind_some]
    exact hloop

theorem copy_spec (moves : Buffers T → Bool) (hxs : Holds bufs h xs) :
    ∃ bufs' out, copy moves bufs h = some (bufs', out) ∧ Holds bufs' out xs ∧
      Changes bufs {} bufs' out :=
  copyLoop_spec moves _ 0 bufs {} rfl (Nat.zero_le _) hxs (holds_default bufs) (by simp)

/-! ### Programs -/

/-- A call through the handle of a queue. -/
inductive Call (T : Type)
  | enqueue (q : ℕ) (item : T)
  | dequeue (q : ℕ)
  | peek (q : ℕ)
  | length (q : ℕ)
  | copy (q : ℕ)

/-- The headers that the handles name, and the buffers. -/
structure World (T : Type) where
  headers : List Header
  buffers : Buffers T

/-- One call. -/
def step (moves : Buffers T → Bool) (w : World T) : Call T → Option (World T × Answer T)
  | .enqueue q item => do
    let h ← w.headers[q]?
    let (buffers, h) ← enqueue moves w.buffers h item
    some (⟨w.headers.set q h, buffers⟩, .done)
  | .dequeue q => do
    let h ← w.headers[q]?
    let (answer, h) ← dequeue w.buffers h
    some ({ w with headers := w.headers.set q h }, answer)
  | .peek q => do
    let h ← w.headers[q]?
    let answer ← peek w.buffers h
    some (w, answer)
  | .length q => do
    let h ← w.headers[q]?
    some (w, .length h.len)
  | .copy q => do
    let h ← w.headers[q]?
    let (buffers, out) ← copy moves w.buffers h
    some (⟨w.headers ++ [out], buffers⟩, .queue w.headers.length)

/-- One call of first-in first-out lists. A call fails only through a handle that names no list. -/
def listStep (qs : List (List T)) : Call T → Option (List (List T) × Answer T)
  | .enqueue q item => do
    let xs ← qs[q]?
    some (qs.set q (xs ++ [item]), .done)
  | .dequeue q => do
    match ← qs[q]? with
    | [] => some (qs, .panic "Queue.dequeue: dequeue on empty queue")
    | x :: xs => some (qs.set q xs, .item x)
  | .peek q => do
    match ← qs[q]? with
    | [] => some (qs, .panic "Queue.peek: peek on empty queue")
    | x :: _ => some (qs, .item x)
  | .length q => do
    let xs ← qs[q]?
    some (qs, .length xs.length)
  | .copy q => do
    let xs ← qs[q]?
    some (qs ++ [xs], .queue qs.length)

/-- The answers to a sequence of calls, up to the first panic. -/
def answers {S : Type} (step : S → Call T → Option (S × Answer T)) :
    S → List (Call T) → Option (List (Answer T))
  | _, [] => some []
  | s, call :: calls =>
    match step s call with
    | none => none
    | some (_, .panic text) => some [.panic text]
    | some (s, answer) => (answers step s calls).map (answer :: ·)

/-- `Queue::default()`. -/
def World.new : World T := ⟨[{}], []⟩

/-- The handles stand for lists, and no two of them share a buffer. -/
structure Stands (w : World T) (qs : List (List T)) : Prop where
  length_eq : w.headers.length = qs.length
  holds : ∀ (q : ℕ) h, w.headers[q]? = some h → ∃ xs, qs[q]? = some xs ∧ Holds w.buffers h xs
  apart : ∀ (q q' : ℕ) h h' a, w.headers[q]? = some h → w.headers[q']? = some h' →
    h.data = some a → h'.data = some a → q = q'

theorem stands_new : Stands (World.new : World T) [[]] := by
  refine ⟨rfl, fun q h hh => ?_, fun q q' h h' a hh _ ha => ?_⟩
  · obtain ⟨rfl, rfl⟩ : q = 0 ∧ {} = h := by simpa [World.new, List.getElem?_singleton] using hh
    exact ⟨[], rfl, holds_default []⟩
  · obtain ⟨rfl, rfl⟩ : q = 0 ∧ {} = h := by simpa [World.new, List.getElem?_singleton] using hh
    cases ha

variable {w : World T} {qs : List (List T)}

/-- A handle names a header and a list, or neither. -/
theorem Stands.cases (hw : Stands w qs) (q : ℕ) :
    (w.headers[q]? = none ∧ qs[q]? = none) ∨
      ∃ h xs, w.headers[q]? = some h ∧ qs[q]? = some xs ∧ Holds w.buffers h xs := by
  cases hh : w.headers[q]? with
  | none =>
    rw [List.getElem?_eq_none_iff, hw.length_eq] at hh
    exact .inl ⟨rfl, List.getElem?_eq_none hh⟩
  | some h =>
    obtain ⟨xs, hxs, hholds⟩ := hw.holds q h hh
    exact .inr ⟨h, xs, rfl, hxs, hholds⟩

/-- A change through one handle leaves the other queues as they are. -/
theorem Stands.set (hw : Stands w qs) {q : ℕ} {h h' : Header} {bufs' : Buffers T} {xs' : List T}
    (hh : w.headers[q]? = some h) (hxs' : Holds bufs' h' xs')
    (hch : Changes w.buffers h bufs' h') :
    Stands ⟨w.headers.set q h', bufs'⟩ (qs.set q xs') := by
  obtain ⟨hq, -⟩ := List.getElem?_eq_some_iff.mp hh
  have hset : ∀ (p : ℕ) g, (w.headers.set q h')[p]? = some g →
      p = q ∧ g = h' ∨ p ≠ q ∧ w.headers[p]? = some g := by
    intro p g hg
    by_cases hp : p = q
    · subst hp
      rw [List.getElem?_set_self hq] at hg
      exact .inl ⟨rfl, (Option.some.inj hg).symm⟩
    · rw [List.getElem?_set_ne (Ne.symm hp)] at hg
      exact .inr ⟨hp, hg⟩
  -- The buffer of `h'` is that of `h`, or a new one.
  have hnew : ∀ (p : ℕ) g a, p ≠ q → w.headers[p]? = some g → g.data = some a → h'.data ≠ some a := by
    intro p g a hp hg ha ha'
    obtain hold | hfresh := hch.data a ha'
    · exact hp (hw.apart p q g h a hg hh ha hold)
    · obtain ⟨ys, -, hys⟩ := hw.holds p g hg
      exact absurd (hys.data_lt ha) (by omega)
  refine ⟨by simp [hw.length_eq], fun p g hg => ?_, fun p p' g g' a hg hg' ha ha' => ?_⟩
  · obtain ⟨rfl, rfl⟩ | ⟨hp, hg⟩ := hset p g hg
    · exact ⟨xs', List.getElem?_set_self (by rw [← hw.length_eq]; exact hq), hxs'⟩
    · obtain ⟨ys, hys, hholds⟩ := hw.holds p g hg
      refine ⟨ys, by rwa [List.getElem?_set_ne (Ne.symm hp)], hholds.frame hch fun a ha hold => ?_⟩
      exact hp (hw.apart p q g h a hg hh ha hold)
  · obtain ⟨hp, rfl⟩ | ⟨hp, hold⟩ := hset p g hg <;>
      obtain ⟨hp', rfl⟩ | ⟨hp', hold'⟩ := hset p' g' hg'
    · rw [hp, hp']
    · exact absurd ha (hnew p' g' a hp' hold' ha')
    · exact absurd ha' (hnew p g a hp hold ha)
    · exact hw.apart p p' g g' a hold hold' ha ha'

/-- A new queue leaves those there are as they are. -/
theorem Stands.append (hw : Stands w qs) {out : Header} {bufs' : Buffers T} {xs : List T}
    (hxs : Holds bufs' out xs) (hch : Changes w.buffers {} bufs' out) :
    Stands ⟨w.headers ++ [out], bufs'⟩ (qs ++ [xs]) := by
  have hget : ∀ (p : ℕ) g, (w.headers ++ [out])[p]? = some g →
      w.headers[p]? = some g ∨ p = w.headers.length ∧ g = out := by
    intro p g hg
    rcases lt_or_ge p w.headers.length with hp | hp
    · rw [List.getElem?_append_left hp] at hg
      exact .inl hg
    · rw [List.getElem?_append_right hp, List.getElem?_singleton] at hg
      split at hg
      · exact .inr ⟨by omega, (Option.some.inj hg).symm⟩
      · cases hg
  have hnew : ∀ (p : ℕ) g a, w.headers[p]? = some g → g.data = some a → out.data ≠ some a := by
    intro p g a hg ha hout
    obtain hold | hfresh := hch.data a hout
    · cases hold
    · obtain ⟨ys, -, hys⟩ := hw.holds p g hg
      exact absurd (hys.data_lt ha) (by omega)
  refine ⟨by simp [hw.length_eq], fun p g hg => ?_, fun p p' g g' a hg hg' ha ha' => ?_⟩
  · obtain hg | ⟨rfl, rfl⟩ := hget p g hg
    · obtain ⟨ys, hys, hholds⟩ := hw.holds p g hg
      obtain ⟨hlt, -⟩ := List.getElem?_eq_some_iff.mp hys
      exact ⟨ys, by rwa [List.getElem?_append_left hlt], hholds.frame hch (by simp)⟩
    · exact ⟨xs, by simp [hw.length_eq], hxs⟩
  · obtain hold | ⟨hp, rfl⟩ := hget p g hg <;> obtain hold' | ⟨hp', rfl⟩ := hget p' g' hg'
    · exact hw.apart p p' g g' a hold hold' ha ha'
    · exact absurd ha' (hnew p g a hold ha)
    · exact absurd ha (hnew p' g' a hold' ha')
    · rw [hp, hp']

/-- A call answers as it does of the lists, and leaves queues that stand for the lists it leaves. -/
theorem Stands.step (moves : Buffers T → Bool) (hw : Stands w qs) (call : Call T) :
    (step moves w call = none ∧ listStep qs call = none) ∨
      ∃ w' qs' answer, step moves w call = some (w', answer) ∧
        listStep qs call = some (qs', answer) ∧ Stands w' qs' := by
  cases call with
  | enqueue q item =>
    obtain ⟨hh, hq⟩ | ⟨h, xs, hh, hq, hxs⟩ := hw.cases q
    · left
      simp [Queue.step, listStep, hh, hq]
    · right
      obtain ⟨bufs', h', henq, hxs', hch⟩ := enqueue_spec moves hxs item
      refine ⟨_, _, .done, ?_, ?_, hw.set hh hxs' hch⟩
      · simp [Queue.step, hh, henq]
      · simp [listStep, hq]
  | dequeue q =>
    obtain ⟨hh, hq⟩ | ⟨h, xs, hh, hq, hxs⟩ := hw.cases q
    · left
      simp [Queue.step, listStep, hh, hq]
    · right
      obtain ⟨hlt, hget⟩ := List.getElem?_eq_some_iff.mp hh
      cases xs with
      | nil =>
        have hlen : h.len = 0 := hxs.len
        have hself : w.headers.set q h = w.headers := by rw [← hget, List.set_getElem_self]
        refine ⟨w, qs, .panic "Queue.dequeue: dequeue on empty queue", ?_, ?_, hw⟩
        · simp [Queue.step, dequeue, hh, hlen, hself]
        · simp [listStep, hq]
      | cons x xs =>
        have hlen : h.len ≠ 0 := by simp [hxs.len]
        have hread : readAt w.buffers h h.head = some x := hxs.readAt (i := 0) rfl
        refine ⟨_, _, .item x, ?_, ?_, hw.set hh hxs.tail ⟨le_rfl, fun _ _ _ => rfl, ?_⟩⟩
        · simp [Queue.step, dequeue, hh, hlen, hread]
        · simp [listStep, hq]
        · exact fun a ha => .inl ha
  | peek q =>
    obtain ⟨hh, hq⟩ | ⟨h, xs, hh, hq, hxs⟩ := hw.cases q
    · left
      simp [Queue.step, listStep, hh, hq]
    · right
      cases xs with
      | nil =>
        have hlen : h.len = 0 := hxs.len
        refine ⟨w, qs, .panic "Queue.peek: peek on empty queue", ?_, ?_, hw⟩
        · simp [Queue.step, peek, hh, hlen]
        · simp [listStep, hq]
      | cons x xs =>
        have hlen : h.len ≠ 0 := by simp [hxs.len]
        have hread : readAt w.buffers h h.head = some x := hxs.readAt (i := 0) rfl
        refine ⟨w, qs, .item x, ?_, ?_, hw⟩
        · simp [Queue.step, peek, hh, hlen, hread]
        · simp [listStep, hq]
  | length q =>
    obtain ⟨hh, hq⟩ | ⟨h, xs, hh, hq, hxs⟩ := hw.cases q
    · left
      simp [Queue.step, listStep, hh, hq]
    · right
      refine ⟨w, qs, .length xs.length, ?_, ?_, hw⟩
      · simp [Queue.step, hh, hxs.len]
      · simp [listStep, hq]
  | copy q =>
    obtain ⟨hh, hq⟩ | ⟨h, xs, hh, hq, hxs⟩ := hw.cases q
    · left
      simp [Queue.step, listStep, hh, hq]
    · right
      obtain ⟨bufs', out, hcopy, hout, hch⟩ := copy_spec moves hxs
      refine ⟨_, _, .queue qs.length, ?_, ?_, hw.append hout hch⟩
      · simp [Queue.step, hh, hcopy, hw.length_eq]
      · simp [listStep, hq]

theorem Stands.answers_eq (moves : Buffers T → Bool) (calls : List (Call T)) :
    ∀ {w : World T} {qs : List (List T)}, Stands w qs →
      answers (Queue.step moves) w calls = answers listStep qs calls := by
  induction calls with
  | nil => exact fun _ => rfl
  | cons call calls ih =>
    intro w qs hw
    obtain ⟨hnone, hnone'⟩ | ⟨w', qs', answer, hstep, hstep', hw'⟩ := hw.step moves call
    · simp only [answers, hnone, hnone']
    · cases answer <;> simp only [answers, hstep, hstep', ih hw']

/-- Whatever a program does from a new queue on, it gets the answers of first-in first-out lists: the
elements in their order, a panic exactly of an empty queue, and of a copy those of a list of its
own. No element is written or read outside the buffer of its queue. -/
theorem answers_eq_listAnswers (moves : Buffers T → Bool) (calls : List (Call T)) :
    answers (step moves) World.new calls = answers listStep [[]] calls :=
  stands_new.answers_eq moves calls

end TurfLang.Queue
