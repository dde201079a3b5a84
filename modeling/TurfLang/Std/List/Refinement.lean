import TurfLang.Std.List.Header
import TurfLang.Std.Queue.Refinement

/-!
# `List<T>` and `Stack<T>` refine shared sequences

The specification is a table of lists and, for each handle, the list it names. An assignment makes
two handles name one list; a copy is a list of its own. Whatever a program does through its handles,
it gets the answers of these lists.
-/

namespace TurfLang.Handles

open Queue (Buffers Holds Changes)

variable {T : Type} {moves : Buffers T → Bool} {bufs : Buffers T} {h : Header} {xs : List T}

/-! ### One call -/

/-- After `makeRoom` the header stands for the same list, and its buffer has a cell behind it. -/
theorem makeRoom_spec (moves : Buffers T → Bool) (hxs : Holds bufs h.asQueue xs) :
    ∃ bufs' h', makeRoom moves bufs h = some (bufs', h') ∧ Holds bufs' h'.asQueue xs ∧
      h'.len < h'.cap ∧ Changes bufs h.asQueue bufs' h'.asQueue := by
  have hroom : 0 + h.len ≤ h.cap := hxs.room
  by_cases hfull : h.len = h.cap
  · rw [makeRoom, if_pos hfull]
    obtain ⟨cap, hcap⟩ : ∃ cap, cap = if h.cap = 0 then 8 else h.cap * 2 := ⟨_, rfl⟩
    have hgrown : h.cap < cap := by split at hcap <;> omega
    rw [← hcap]
    cases hdata : h.data with
    | none =>
      have hnil : xs = [] := by
        obtain ⟨hzero, -⟩ | ⟨a, cells, hdata', -⟩ := hxs.cells
        · rw [← List.length_eq_zero_iff, ← hxs.len]
          simp only [Header.asQueue_cap] at hzero
          simp only [Header.asQueue_len]
          omega
        · cases hdata.symm.trans hdata'
      subst hnil
      have hlen : h.len = 0 := hxs.len
      obtain ⟨hxs', hch⟩ := Queue.holds_gcAlloc (h := h.asQueue) bufs (n := cap) (by simp [hlen])
      exact ⟨_, { h with cap, data := some bufs.length }, rfl, hxs', by show h.len < cap; omega, hch⟩
    | some a =>
      obtain ⟨bufs', a', hrealloc, hxs', hch⟩ :=
        Queue.holds_gcRealloc moves hxs hdata (show h.cap ≤ cap by omega)
      refine ⟨bufs', { h with cap, data := some a' }, ?_, hxs', by show h.len < cap; omega, hch⟩
      simp only [hrealloc, Option.bind_eq_bind, Option.bind_some]
  · rw [makeRoom, if_neg hfull]
    exact ⟨bufs, h, rfl, hxs, by omega, .refl bufs _⟩

theorem push_spec (moves : Buffers T → Bool) (hxs : Holds bufs h.asQueue xs) (item : T) :
    ∃ bufs' h', push moves bufs h item = some (bufs', h') ∧ Holds bufs' h'.asQueue (xs ++ [item]) ∧
      Changes bufs h.asQueue bufs' h'.asQueue := by
  obtain ⟨bufs', h', hmake, hxs', hlast, hch⟩ := makeRoom_spec moves hxs
  obtain ⟨bufs'', hwrite, hxs'', hch'⟩ := hxs'.append (by simpa using hlast) item
  refine ⟨bufs'', { h' with len := h'.len + 1 }, ?_, hxs'', hch.trans hch'⟩
  have hwriteAt : writeAt bufs' h' h'.len item = some bufs'' := by
    rw [writeAt, if_pos (Int.natCast_nonneg _), Int.toNat_natCast, ← hwrite]
    simp
  simp only [push, hmake, hwriteAt, Option.bind_eq_bind, Option.bind_some]

/-- Each turn of `copy` appends the next element to the new list. -/
theorem copyLoop_spec (moves : Buffers T → Bool) {self : Header} : ∀ (n i : ℕ) (bufs : Buffers T)
    (out : Header), self.len - i = n → i ≤ self.len → Holds bufs self.asQueue xs →
    Holds bufs out.asQueue (xs.take i) → (∀ a, self.data = some a → out.data ≠ some a) →
    ∃ bufs' out', copyLoop moves self bufs out i = some (bufs', out') ∧
      Holds bufs' out'.asQueue xs ∧ Changes bufs out.asQueue bufs' out'.asQueue := by
  intro n
  induction n with
  | zero =>
    intro i bufs out hn hi hself hout _
    have hlen : self.len = xs.length := hself.len
    refine ⟨bufs, out, by rw [copyLoop, if_neg (by omega)], ?_, .refl bufs _⟩
    rwa [List.take_of_length_le (by omega)] at hout
  | succ n ih =>
    intro i bufs out hn hi hself hout hne
    have hlen : self.len = xs.length := hself.len
    have hlt : i < xs.length := by omega
    have hread := readAt_spec hself (List.getElem?_eq_getElem hlt)
    obtain ⟨bufs', out', hpush, hout', hch⟩ := push_spec moves hout xs[i]
    rw [List.take_append_getElem hlt] at hout'
    obtain ⟨bufs'', out'', hloop, hxs'', hch'⟩ := ih (i + 1) bufs' out' (by omega) (by omega)
      (hself.frame hch hne) hout' (fun a ha hout => by
        obtain hold | hnew := hch.data a hout
        · exact hne a ha hold
        · exact absurd (hself.data_lt ha) (by omega))
    refine ⟨bufs'', out'', ?_, hxs'', hch.trans hch'⟩
    rw [copyLoop, if_pos (by omega)]
    simp only [hread, hpush, Option.bind_eq_bind, Option.bind_some]
    exact hloop

theorem copy_spec (moves : Buffers T → Bool) (hxs : Holds bufs h.asQueue xs) :
    ∃ bufs' out, copy moves bufs h = some (bufs', out) ∧ Holds bufs' out.asQueue xs ∧
      Changes bufs {} bufs' out.asQueue :=
  copyLoop_spec moves _ 0 bufs {} rfl (Nat.zero_le _) hxs (Queue.holds_default bufs) (by simp)

/-- The position of the first element that satisfies a predicate, or -1. -/
def firstIndex (predicate : T → Bool) (xs : List T) : ℤ :=
  match xs.findIdx? predicate with
  | some i => i
  | none => -1

/-- The loop of `find` passes over elements that do not satisfy the predicate. -/
theorem findLoop_spec (hxs : Holds bufs h.asQueue xs) (predicate : T → Bool) : ∀ (n i : ℕ),
    h.len - i = n → (∀ (j : ℕ) (hj : j < xs.length), j < i → predicate xs[j] = false) →
    findLoop bufs h predicate i = some (firstIndex predicate xs) := by
  have hlen : h.len = xs.length := hxs.len
  intro n
  induction n with
  | zero =>
    intro i hn hbefore
    have hnone : xs.findIdx? predicate = none := by
      rw [List.findIdx?_eq_none_iff]
      intro x hx
      obtain ⟨j, hj, rfl⟩ := List.getElem_of_mem hx
      exact hbefore j hj (by omega)
    rw [findLoop, if_neg (by omega), firstIndex, hnone]
  | succ n ih =>
    intro i hn hbefore
    have hlt : i < xs.length := by omega
    have hread := readAt_spec hxs (List.getElem?_eq_getElem hlt)
    rw [findLoop, if_pos (by omega)]
    simp only [hread, Option.bind_eq_bind, Option.bind_some]
    by_cases hi : predicate xs[i] = true
    · have hsome : xs.findIdx? predicate = some i := by
        rw [List.findIdx?_eq_some_iff_getElem]
        exact ⟨hlt, hi, fun j hj => by simpa using hbefore j (by omega) hj⟩
      rw [if_pos hi, firstIndex, hsome]
    · rw [if_neg hi]
      refine ih (i + 1) (by omega) fun j hj hji => ?_
      rcases Nat.lt_succ_iff_lt_or_eq.mp hji with hlt | rfl
      · exact hbefore j hj hlt
      · simpa using hi

/-! ### Indices -/

/-- The position that an index from the front names. -/
def place (n : ℕ) (i : ℤ) : Option (Fin n) :=
  if hi : 0 ≤ i ∧ i < n then some ⟨i.toNat, by omega⟩ else none

/-- The position that an index names which may count from the end. -/
def placeAround (n : ℕ) (i : ℤ) : Option (Fin n) :=
  if hi : -n ≤ i ∧ i < n then some ⟨(if i < 0 then i + n else i).toNat, by split <;> omega⟩ else none

/-- The sum that `wrap` takes is an `int`. -/
theorem wrap_fits (i : Int64) (hlen : h.len < 2 ^ 63) :
    -2 ^ 63 ≤ wrap h i ∧ wrap h i < 2 ^ 63 := by
  have hle := i.le_toInt
  have hlt := i.toInt_lt
  unfold wrap
  split <;> omega

/-- `wrap` and the check after it accept the indices of `placeAround`. -/
theorem placeAround_eq (hxs : Holds bufs h.asQueue xs) (i : Int64) :
    placeAround xs.length i.toInt = place xs.length (wrap h i) := by
  have hlen : h.len = xs.length := hxs.len
  unfold placeAround place wrap
  rw [hlen]
  by_cases hneg : i.toInt < 0
  · simp only [if_pos hneg]
    by_cases hin : -(xs.length : ℤ) ≤ i.toInt ∧ i.toInt < xs.length
    · rw [dif_pos hin, dif_pos (by omega)]
    · rw [dif_neg hin, dif_neg (by omega)]
  · simp only [if_neg hneg]
    by_cases hin : -(xs.length : ℤ) ≤ i.toInt ∧ i.toInt < xs.length
    · rw [dif_pos hin, dif_pos (by omega)]
    · rw [dif_neg hin, dif_neg (by omega)]

/-- The code that reads the element at a position after its bounds check. -/
theorem checkedRead (hxs : Holds bufs h.asQueue xs) (idx : ℤ) (text : String) :
    (if idx < 0 ∨ idx ≥ h.len then some (Answer.panic text)
      else (readAt bufs h idx).bind fun item => some (.item item)) =
      some ((place xs.length idx).elim (.panic text) fun k => .item xs[k]) := by
  have hlen : h.len = xs.length := hxs.len
  by_cases hin : 0 ≤ idx ∧ idx < xs.length
  · obtain ⟨k, rfl⟩ : ∃ k : ℕ, idx = k := ⟨idx.toNat, by omega⟩
    have hk : k < xs.length := by omega
    rw [if_neg (by omega), place, dif_pos hin, readAt_spec hxs (List.getElem?_eq_getElem hk)]
    rfl
  · rw [if_pos (by omega), place, dif_neg hin]
    rfl

/-- The code that writes the element at a position after its bounds check. -/
theorem checkedWrite (hxs : Holds bufs h.asQueue xs) (idx : ℤ) (text : String) (value : T) :
    ∃ bufs', (if idx < 0 ∨ idx ≥ h.len then some (Answer.panic (T := T) text, bufs)
        else (writeAt bufs h idx value).bind fun bufs => some (.done, bufs)) =
        some ((place xs.length idx).elim (.panic text) fun _ => .done, bufs') ∧
      Holds bufs' h.asQueue ((place xs.length idx).elim xs fun k => xs.set k value) ∧
      Changes bufs h.asQueue bufs' h.asQueue := by
  have hlen : h.len = xs.length := hxs.len
  by_cases hin : 0 ≤ idx ∧ idx < xs.length
  · obtain ⟨k, rfl⟩ : ∃ k : ℕ, idx = k := ⟨idx.toNat, by omega⟩
    obtain ⟨bufs', hwrite, hxs', hch⟩ := writeAt_spec hxs (i := k) (by omega) value
    refine ⟨bufs', ?_, ?_, hch⟩
    · rw [if_neg (by omega), place, dif_pos hin, hwrite]
      rfl
    · rw [place, dif_pos hin]
      exact hxs'
  · rw [if_pos (by omega), place, dif_neg hin]
    exact ⟨bufs, rfl, hxs, .refl bufs _⟩

/-! ### Programs -/

/-- A call through a variable that holds a handle, or a step that makes such a variable: with a new
list, or with the handle of another variable, as an assignment and a parameter do. -/
inductive Call (T : Type)
  | default
  | share (v : ℕ)
  | assign (v source : ℕ)
  | push (v : ℕ) (item : T)
  | pop (v : ℕ)
  | peek (v : ℕ)
  | get (v : ℕ) (i : Int64)
  | set (v : ℕ) (i : Int64) (value : T)
  | index (v : ℕ) (i : Int64)
  | setIndex (v : ℕ) (i : Int64) (value : T)
  | length (v : ℕ)
  | find (v : ℕ) (predicate : T → Bool)
  | copy (v : ℕ)

/-- Whether a list or a stack has the operation. -/
def Kind.Offers : Kind → Call T → Prop
  | .list, .peek _ => False
  | .stack, .get .. | .stack, .set .. | .stack, .index .. => False
  | .stack, .setIndex .. | .stack, .find .. => False
  | _, _ => True

instance (kind : Kind) (call : Call T) : Decidable (kind.Offers call) := by
  cases kind <;> cases call <;> unfold Kind.Offers <;> infer_instance

/-- The header that each variable's handle names, the headers and the buffers. -/
structure World (T : Type) where
  handles : List ℕ := []
  headers : List Header := []
  buffers : Buffers T := []

/-- The header a variable's handle names, with its number. -/
def World.header (w : World T) (v : ℕ) : Option (ℕ × Header) := do
  let a ← w.handles[v]?
  let h ← w.headers[a]?
  some (a, h)

/-- One step of a program with lists, or with stacks. -/
def step (kind : Kind) (moves : Buffers T → Bool) (w : World T) (call : Call T) :
    Option (World T × Answer T) :=
  if kind.Offers call then
    match call with
    | .default =>
      some (⟨w.handles ++ [w.headers.length], w.headers ++ [{}], w.buffers⟩, .done)
    | .share v => do
      let a ← w.handles[v]?
      some ({ w with handles := w.handles ++ [a] }, .done)
    | .assign v source => do
      let _ ← w.handles[v]?
      let a ← w.handles[source]?
      some ({ w with handles := w.handles.set v a }, .done)
    | .push v item => do
      let (a, h) ← w.header v
      let (buffers, h) ← push moves w.buffers h item
      some (⟨w.handles, w.headers.set a h, buffers⟩, .done)
    | .pop v => do
      let (a, h) ← w.header v
      let (answer, h) ← pop kind w.buffers h
      some (⟨w.handles, w.headers.set a h, w.buffers⟩, answer)
    | .peek v => do
      let (_, h) ← w.header v
      let answer ← peek w.buffers h
      some (w, answer)
    | .get v i => do
      let (_, h) ← w.header v
      let answer ← get w.buffers h i
      some (w, answer)
    | .set v i value => do
      let (_, h) ← w.header v
      let (answer, buffers) ← set w.buffers h i value
      some ({ w with buffers }, answer)
    | .index v i => do
      let (_, h) ← w.header v
      let answer ← index w.buffers h i
      some (w, answer)
    | .setIndex v i value => do
      let (_, h) ← w.header v
      let (answer, buffers) ← setIndex w.buffers h i value
      some ({ w with buffers }, answer)
    | .length v => do
      let (_, h) ← w.header v
      some (w, .int h.len)
    | .find v predicate => do
      let (_, h) ← w.header v
      let i ← find w.buffers h predicate
      some (w, .int i)
    | .copy v => do
      let (_, h) ← w.header v
      let (buffers, out) ← copy moves w.buffers h
      some (⟨w.handles ++ [w.headers.length], w.headers ++ [out], buffers⟩, .done)
  else none

/-- The list that each variable's handle names, and the lists. -/
structure Lists (T : Type) where
  handles : List ℕ := []
  lists : List (List T) := []

/-- The list a variable's handle names, with its number. -/
def Lists.list (s : Lists T) (v : ℕ) : Option (ℕ × List T) := do
  let a ← s.handles[v]?
  let xs ← s.lists[a]?
  some (a, xs)

/-- One step over shared lists. It fails only through a variable that there is not. -/
def listStep (kind : Kind) (s : Lists T) (call : Call T) : Option (Lists T × Answer T) :=
  if kind.Offers call then
    match call with
    | .default => some (⟨s.handles ++ [s.lists.length], s.lists ++ [[]]⟩, .done)
    | .share v => do
      let a ← s.handles[v]?
      some ({ s with handles := s.handles ++ [a] }, .done)
    | .assign v source => do
      let _ ← s.handles[v]?
      let a ← s.handles[source]?
      some ({ s with handles := s.handles.set v a }, .done)
    | .push v item => do
      let (a, xs) ← s.list v
      some ({ s with lists := s.lists.set a (xs ++ [item]) }, .done)
    | .pop v => do
      let (a, xs) ← s.list v
      match xs.getLast? with
      | none => some (s, .panic kind.popText)
      | some x => some ({ s with lists := s.lists.set a xs.dropLast }, .item x)
    | .peek v => do
      let (_, xs) ← s.list v
      match xs.getLast? with
      | none => some (s, .panic "Stack.peek: peek on empty stack")
      | some x => some (s, .item x)
    | .get v i => do
      let (_, xs) ← s.list v
      match place xs.length i.toInt with
      | none => some (s, .panic "List.get: index out of bounds")
      | some k => some (s, .item xs[k])
    | .set v i value => do
      let (a, xs) ← s.list v
      match place xs.length i.toInt with
      | none => some (s, .panic "List.set: index out of bounds")
      | some k => some ({ s with lists := s.lists.set a (xs.set k value) }, .done)
    | .index v i => do
      let (_, xs) ← s.list v
      match placeAround xs.length i.toInt with
      | none => some (s, .panic "List[]: index out of bounds")
      | some k => some (s, .item xs[k])
    | .setIndex v i value => do
      let (a, xs) ← s.list v
      match placeAround xs.length i.toInt with
      | none => some (s, .panic "List[]=: index out of bounds")
      | some k => some ({ s with lists := s.lists.set a (xs.set k value) }, .done)
    | .length v => do
      let (_, xs) ← s.list v
      some (s, .int xs.length)
    | .find v predicate => do
      let (_, xs) ← s.list v
      some (s, .int (firstIndex predicate xs))
    | .copy v => do
      let (_, xs) ← s.list v
      some (⟨s.handles ++ [s.lists.length], s.lists ++ [xs]⟩, .done)
  else none

/-- The answers to a sequence of calls. A panic ends a program; the calls after it are there to
show that the lists are as before. -/
def answers {S : Type} (step : S → Call T → Option (S × Answer T)) :
    S → List (Call T) → Option (List (Answer T))
  | _, [] => some []
  | s, call :: calls => do
    let (s, answer) ← step s call
    let rest ← answers step s calls
    some (answer :: rest)

/-! ### The relation between headers and lists -/

/-- The variables name headers and lists of the same numbers, and the headers stand for these
lists. -/
structure Stands (w : World T) (s : Lists T) : Prop where
  handles_eq : w.handles = s.handles
  headers : Queue.Stands ⟨w.headers.map Header.asQueue, w.buffers⟩ s.lists

variable {w : World T} {s : Lists T}

theorem Stands.length_eq (hw : Stands w s) : w.headers.length = s.lists.length := by
  simpa using hw.headers.length_eq

theorem stands_new : Stands ({} : World T) {} := by
  refine ⟨rfl, ⟨rfl, fun q h hh => ?_, fun q q' h h' a hh => ?_⟩⟩
  · cases hh
  · cases hh

/-- A variable names a header and a list, or neither. -/
theorem Stands.cases (hw : Stands w s) (v : ℕ) :
    (w.header v = none ∧ s.list v = none) ∨ ∃ a h xs, w.header v = some (a, h) ∧
      s.list v = some (a, xs) ∧ w.headers[a]? = some h ∧ s.lists[a]? = some xs ∧
      Holds w.buffers h.asQueue xs := by
  unfold World.header Lists.list
  rw [hw.handles_eq]
  cases hv : s.handles[v]? with
  | none => exact .inl ⟨rfl, rfl⟩
  | some a =>
    obtain ⟨hh, hxs⟩ | ⟨g, xs, hg, hxs, hholds⟩ := hw.headers.cases a
    · left
      rw [List.getElem?_map, Option.map_eq_none_iff] at hh
      simp [hh, hxs]
    · right
      obtain ⟨h, hh, rfl⟩ := Option.map_eq_some_iff.mp (List.getElem?_map ▸ hg)
      exact ⟨a, h, xs, by simp [hh], by simp [hxs], hh, hxs, hholds⟩

/-- The same handles in other variables. -/
theorem Stands.rename (hw : Stands w s) (handles : List ℕ) :
    Stands { w with handles } { s with handles } :=
  ⟨rfl, hw.headers⟩

/-- A change of one header leaves the other lists as they are. -/
theorem Stands.set (hw : Stands w s) {a : ℕ} {h' : Header} {bufs' : Buffers T} {xs' : List T}
    (hh : w.headers[a]? = some h) (hxs' : Holds bufs' h'.asQueue xs')
    (hch : Changes w.buffers h.asQueue bufs' h'.asQueue) :
    Stands ⟨w.handles, w.headers.set a h', bufs'⟩ ⟨s.handles, s.lists.set a xs'⟩ := by
  refine ⟨hw.handles_eq, ?_⟩
  have hset := hw.headers.set (q := a) (h := h.asQueue) (by simp [hh]) hxs' hch
  rwa [← List.map_set] at hset

/-- A change of the buffer alone. -/
theorem Stands.setBuffers (hw : Stands w s) {a : ℕ} {bufs' : Buffers T} {xs' : List T}
    (hh : w.headers[a]? = some h) (hxs' : Holds bufs' h.asQueue xs')
    (hch : Changes w.buffers h.asQueue bufs' h.asQueue) :
    Stands { w with buffers := bufs' } { s with lists := s.lists.set a xs' } := by
  obtain ⟨hlt, hget⟩ := List.getElem?_eq_some_iff.mp hh
  have hset := hw.set hh hxs' hch
  rwa [← hget, List.set_getElem_self] at hset

/-- A new list, and a new variable for it. -/
theorem Stands.append (hw : Stands w s) {out : Header} {bufs' : Buffers T} {xs : List T}
    (hxs : Holds bufs' out.asQueue xs) (hch : Changes w.buffers {} bufs' out.asQueue) :
    Stands ⟨w.handles ++ [w.headers.length], w.headers ++ [out], bufs'⟩
      ⟨s.handles ++ [s.lists.length], s.lists ++ [xs]⟩ := by
  refine ⟨by rw [hw.handles_eq, hw.length_eq], ?_⟩
  have happend := hw.headers.append hxs hch
  rwa [← List.map_singleton, ← List.map_append] at happend

/-- Both sides fail, or both go on to states that stand for each other with the same answer. -/
def Agree (r : Option (World T × Answer T)) (r' : Option (Lists T × Answer T)) : Prop :=
  (r = none ∧ r' = none) ∨
    ∃ w s answer, r = some (w, answer) ∧ r' = some (s, answer) ∧ Stands w s

theorem Agree.done {w : World T} {s : Lists T} (hw : Stands w s) (answer : Answer T) :
    Agree (some (w, answer)) (some (s, answer)) :=
  .inr ⟨w, s, answer, rfl, rfl, hw⟩

/-- A call through a variable agrees when it does for every header and list that the variable may
name. -/
theorem Stands.agree (hw : Stands w s) {v : ℕ}
    {f : ℕ × Header → Option (World T × Answer T)} {g : ℕ × List T → Option (Lists T × Answer T)}
    (hfg : ∀ a h xs, w.headers[a]? = some h → s.lists[a]? = some xs →
      Holds w.buffers h.asQueue xs → Agree (f (a, h)) (g (a, xs))) :
    Agree ((w.header v).bind f) ((s.list v).bind g) := by
  obtain ⟨hh, hxs⟩ | ⟨a, h, xs, hh, hxs, hget, hlist, hholds⟩ := hw.cases v
  · rw [hh, hxs]
    exact .inl ⟨rfl, rfl⟩
  · rw [hh, hxs]
    exact hfg a h xs hget hlist hholds

theorem set_getElem?_self {α : Type*} {l : List α} {i : ℕ} {x : α} (h : l[i]? = some x) :
    l.set i x = l := by
  obtain ⟨hlt, rfl⟩ := List.getElem?_eq_some_iff.mp h
  exact List.set_getElem_self hlt

/-- A step does what it does of the lists. -/
theorem Stands.step (hw : Stands w s) (kind : Kind) (moves : Buffers T → Bool) (call : Call T) :
    Agree (step kind moves w call) (listStep kind s call) := by
  unfold Handles.step listStep
  by_cases hoffers : kind.Offers call
  swap
  · rw [if_neg hoffers, if_neg hoffers]
    exact .inl ⟨rfl, rfl⟩
  rw [if_pos hoffers, if_pos hoffers]
  cases call with
  | default => exact .done (hw.append (Queue.holds_default _) (.refl _ _)) _
  | share v =>
    simp only [hw.handles_eq]
    cases hv : s.handles[v]? with
    | none => exact .inl ⟨rfl, rfl⟩
    | some a => exact .done (hw.rename _) _
  | assign v source =>
    simp only [hw.handles_eq]
    cases hv : s.handles[v]? with
    | none => exact .inl ⟨rfl, rfl⟩
    | some _ =>
      cases hsource : s.handles[source]? with
      | none => exact .inl ⟨rfl, rfl⟩
      | some a => exact .done (hw.rename _) _
  | push v item =>
    refine hw.agree fun a h xs hh _ hxs => ?_
    obtain ⟨bufs', h', hpush, hxs', hch⟩ := push_spec moves hxs item
    simp only [hpush]
    exact .done (hw.set hh hxs' hch) _
  | pop v =>
    refine hw.agree fun a h xs hh hlist hxs => ?_
    cases xs using List.reverseRecOn with
    | nil =>
      have hlen : h.len = 0 := hxs.len
      have hsame := hw.set hh hxs (.refl _ _)
      rw [set_getElem?_self hlist] at hsame
      simp only [pop, if_pos hlen]
      exact .done hsame _
    | append_singleton xs x =>
      have hlen : h.len = xs.length + 1 := by simpa using hxs.len
      have hread : readAt w.buffers { h with len := h.len - 1 } (h.len - 1 : ℕ) = some x :=
        readAt_spec (h := h) hxs (by simp [hlen])
      simp only [pop, if_neg (show h.len ≠ 0 by omega), hread, List.getLast?_concat,
        List.dropLast_concat]
      exact .done (hw.set hh (Holds.dropLast hxs) ⟨le_rfl, fun _ _ _ => rfl, fun _ ha => .inl ha⟩) _
  | peek v =>
    refine hw.agree fun a h xs hh hlist hxs => ?_
    cases xs using List.reverseRecOn with
    | nil =>
      have hlen : h.len = 0 := hxs.len
      simp only [peek, if_pos hlen]
      exact .done hw _
    | append_singleton xs x =>
      have hlen : h.len = xs.length + 1 := by simpa using hxs.len
      have hread : readAt w.buffers h ((h.len : ℤ) - 1) = some x := by
        rw [hlen, Nat.cast_succ, Int.add_sub_cancel]
        exact readAt_spec hxs (by simp)
      simp only [peek, if_neg (show h.len ≠ 0 by omega), hread, List.getLast?_concat]
      exact .done hw _
  | get v i =>
    refine hw.agree fun a h xs hh hlist hxs => ?_
    have hread : get w.buffers h i = _ := checkedRead hxs i.toInt "List.get: index out of bounds"
    simp only [hread]
    cases place xs.length i.toInt with
    | none => exact .done hw _
    | some k => exact .done hw _
  | set v i value =>
    refine hw.agree fun a h xs hh hlist hxs => ?_
    obtain ⟨bufs', hwrite, hxs', hch⟩ :=
      checkedWrite hxs i.toInt "List.set: index out of bounds" value
    have hset : Handles.set w.buffers h i value = _ := hwrite
    have hnew := hw.setBuffers hh hxs' hch
    simp only [hset]
    cases hplace : place xs.length i.toInt with
    | none =>
      rw [hplace, Option.elim_none, set_getElem?_self hlist] at hnew
      exact .done hnew _
    | some k =>
      rw [hplace] at hnew
      exact .done hnew _
  | index v i =>
    refine hw.agree fun a h xs hh hlist hxs => ?_
    have hread : index w.buffers h i = _ := checkedRead hxs (wrap h i) "List[]: index out of bounds"
    simp only [hread, placeAround_eq hxs]
    cases place xs.length (wrap h i) with
    | none => exact .done hw _
    | some k => exact .done hw _
  | setIndex v i value =>
    refine hw.agree fun a h xs hh hlist hxs => ?_
    obtain ⟨bufs', hwrite, hxs', hch⟩ :=
      checkedWrite hxs (wrap h i) "List[]=: index out of bounds" value
    have hset : setIndex w.buffers h i value = _ := hwrite
    have hnew := hw.setBuffers hh hxs' hch
    simp only [hset, placeAround_eq hxs]
    cases hplace : place xs.length (wrap h i) with
    | none =>
      rw [hplace, Option.elim_none, set_getElem?_self hlist] at hnew
      exact .done hnew _
    | some k =>
      rw [hplace] at hnew
      exact .done hnew _
  | length v =>
    refine hw.agree fun a h xs hh hlist hxs => ?_
    have hlen : h.len = xs.length := hxs.len
    simp only [hlen]
    exact .done hw _
  | find v predicate =>
    refine hw.agree fun a h xs hh hlist hxs => ?_
    have hfind := findLoop_spec hxs predicate _ 0 rfl (by simp)
    simp only [find, hfind]
    exact .done hw _
  | copy v =>
    refine hw.agree fun a h xs hh hlist hxs => ?_
    obtain ⟨bufs', out, hcopy, hout, hch⟩ := copy_spec moves hxs
    simp only [hcopy]
    exact .done (hw.append hout hch) _

theorem Stands.answers_eq (kind : Kind) (moves : Buffers T → Bool) (calls : List (Call T)) :
    ∀ {w : World T} {s : Lists T}, Stands w s →
      answers (Handles.step kind moves) w calls = answers (listStep kind) s calls := by
  induction calls with
  | nil => exact fun _ => rfl
  | cons call calls ih =>
    intro w s hw
    obtain ⟨hnone, hnone'⟩ | ⟨w', s', answer, hstep, hstep', hw'⟩ := hw.step kind moves call
    · simp only [answers, hnone, hnone']
      rfl
    · simp only [answers, hstep, hstep', Option.bind_eq_bind, Option.bind_some, ih hw']

/-- Whatever a program does with the handles of lists, or of stacks, it gets the answers of shared
lists: the elements of the list that its variable names, a panic exactly of an empty one or of an
index outside it, after which the lists are as before, and of a copy those of a list of its own. No
element is written or read outside the buffer of its list. -/
theorem answers_eq_sharedLists (kind : Kind) (moves : Buffers T → Bool) (calls : List (Call T)) :
    answers (step kind moves) {} calls = answers (listStep kind) {} calls :=
  stands_new.answers_eq kind moves calls

/-- A push through an assigned handle shows through its source, and does not in a copy. -/
example : answers (step .list fun _ => true) {}
    [.default, .share 0, .push 1 7, .index 0 (-1), .copy 0, .setIndex 0 0 8, .get 2 0, .get 2 (-1)] =
      some [.done, .done, .done, .item 7, .done, .done, .item 7,
        .panic "List.get: index out of bounds"] := by
  rw [stands_new.answers_eq]
  rfl

end TurfLang.Handles
