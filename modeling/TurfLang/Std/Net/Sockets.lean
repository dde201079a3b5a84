import Mathlib.Data.List.Basic
import Mathlib.Data.Int.Notation
import Mathlib.Logic.Function.Basic

/-!
# `lib/std/io/net.tr`: connections and listeners

What the operating system answers is given to each call. Whatever is opened is a file with a number
of its own, which is never used again, while a descriptor is. The code sees descriptors only; a
variable is kept with the file that its value was made for. The address that a socket is given is
handed to the system and not looked at, so only its block is modelled.
-/

namespace TurfLang

namespace Net

/-! ### The system -/

inductive NetworkError
  | socketCreationFailed
  | connectionRefused
  | bindFailed
  | listenFailed
  | acceptFailed
  | resolutionFailed
  deriving DecidableEq, Repr

/-- An error and its message. -/
structure Raised where
  error : NetworkError
  message : String
  deriving DecidableEq, Repr

structure World where
  /-- The file that a descriptor names. -/
  owner : ℕ → Option ℕ
  /-- The files opened so far. -/
  files : ℕ
  /-- The address blocks that are allocated. -/
  addresses : ℕ

namespace World

def opened (w : World) (fd : ℕ) : World :=
  { w with
    owner := Function.update w.owner fd (some w.files)
    files := w.files + 1 }

def released (w : World) (fd : ℕ) : World := { w with owner := Function.update w.owner fd none }

end World

/-- A call that opens a file: its descriptor, or -1. -/
def newDescriptor (answer : Option ℕ) (w : World) : ℤ × World :=
  match answer with
  | none => (-1, w)
  | some fd => (fd, w.opened fd)

def turfrtNetSocket : Option ℕ → World → ℤ × World := newDescriptor

/-- `turfrt_net_close`. -/
def turfrtNetClose (fd : ℤ) (w : World) : World := if fd < 0 then w else w.released fd.toNat

/-- `build_sock_addr`: whether there is a block. -/
def buildSockAddr (allocated : Bool) (w : World) : Bool × World :=
  (allocated, { w with addresses := w.addresses + allocated.toNat })

/-- `mem::free`, which does nothing for null. -/
def memFree (addr : Bool) (w : World) : World :=
  { w with addresses := w.addresses - addr.toNat }

/-- What the system answers to the calls of `connect` and `bind`. -/
structure Answers where
  socket : Option ℕ
  address : Bool
  /-- What `connect` or `bind` returns. -/
  status : ℤ
  listen : ℤ

/-! ### The module -/

structure TcpConnection where
  fd : ℤ
  deriving DecidableEq, Repr

structure TcpListener where
  fd : ℤ
  deriving DecidableEq, Repr

def TcpConnection.connect (port : ℤ) (r : Answers) (w : World) :
    Except Raised TcpConnection × World :=
  let (fd, w) := turfrtNetSocket r.socket w
  if ¬(fd ≥ 0) then (.error ⟨.socketCreationFailed, "could not create a socket"⟩, w)
  else
    let (addr, w) := buildSockAddr r.address w
    let w := memFree addr w
    if ¬(r.status = 0) then
      (.error ⟨.connectionRefused, "connection to port " ++ toString port ++ " refused"⟩, w)
    else (.ok ⟨fd⟩, w)

def TcpConnection.close (c : TcpConnection) (w : World) : TcpConnection × World :=
  if c.fd < 0 then (c, w) else (⟨-1⟩, turfrtNetClose c.fd w)

/-- `TcpListener.bind`; `turfrt_net_reuseaddr` changes nothing here. -/
def TcpListener.bind (port : ℤ) (r : Answers) (w : World) : Except Raised TcpListener × World :=
  let (fd, w) := turfrtNetSocket r.socket w
  if ¬(fd ≥ 0) then (.error ⟨.socketCreationFailed, "could not create a socket"⟩, w)
  else
    let (addr, w) := buildSockAddr r.address w
    let w := memFree addr w
    if ¬(r.status = 0) then (.error ⟨.bindFailed, "could not bind port " ++ toString port⟩, w)
    else if ¬(r.listen = 0) then
      (.error ⟨.listenFailed, "could not listen on port " ++ toString port⟩, w)
    else (.ok ⟨fd⟩, w)

/-- `TcpListener.accept`, given the descriptor of the client. -/
def TcpListener.accept (client : Option ℕ) (w : World) : Except Raised TcpConnection × World :=
  let (clientFd, w) := newDescriptor client w
  if ¬(clientFd ≥ 0) then (.error ⟨.acceptFailed, "could not accept a connection"⟩, w)
  else (.ok ⟨clientFd⟩, w)

def TcpListener.close (l : TcpListener) (w : World) : TcpListener × World :=
  if l.fd < 0 then (l, w) else (⟨-1⟩, turfrtNetClose l.fd w)

/-! ### Programs -/

inductive Socket
  | connection (c : TcpConnection)
  | listener (l : TcpListener)
  deriving DecidableEq, Repr

namespace Socket

def fd : Socket → ℤ
  | .connection c => c.fd
  | .listener l => l.fd

def close : Socket → World → Socket × World
  | .connection c, w => let (c, w) := c.close w; (.connection c, w)
  | .listener l, w => let (l, w) := l.close w; (.listener l, w)

end Socket

/-- A variable with a socket, and the file that its value was made for. -/
structure Variable where
  socket : Socket
  file : ℕ

structure Process extends World where
  vars : List Variable
  /-- The files that were opened by calls that failed. -/
  failed : List ℕ
  /-- The files of the rest of the program. -/
  others : List ℕ

/-- A step of a program that uses the module. A copy is made by an assignment, a field or an
argument; the rest of the program closes its own files only. -/
inductive Action
  | connect (port : ℤ) (r : Answers)
  | bind (port : ℤ) (r : Answers)
  | accept (i : ℕ) (client : Option ℕ)
  | close (i : ℕ)
  | copy (i : ℕ)
  | openOther (fd : ℕ)
  | closeOther (fd : ℕ)

/-- A call that fails after it has made its socket. -/
def Action.leaves : Action → Bool
  | .connect _ r => r.socket.isSome && r.status ≠ 0
  | .bind _ r => r.socket.isSome && (r.status ≠ 0 || r.listen ≠ 0)
  | _ => false

namespace Process

/-- The process after a call that makes a socket. -/
def after (p : Process) : Except Raised Socket × World → Process
  | (.ok x, w) => { p with toWorld := w, vars := p.vars ++ [⟨x, p.files⟩] }
  | (.error _, w) =>
    { p with toWorld := w, failed := p.failed ++ List.range' p.files (w.files - p.files) }

/-- The system gives a descriptor only if it is free. -/
def free (p : Process) (answer : Option ℕ) : Bool := answer.all fun fd => (p.owner fd).isNone

def step (p : Process) : Action → Option Process
  | .connect port r =>
    let (c, w) := TcpConnection.connect port r p.toWorld
    if p.free r.socket then some (p.after (c.map .connection, w)) else none
  | .bind port r =>
    let (l, w) := TcpListener.bind port r p.toWorld
    if p.free r.socket then some (p.after (l.map .listener, w)) else none
  | .accept i client =>
    match p.vars[i]? with
    | some ⟨.listener _, _⟩ =>
      let (c, w) := TcpListener.accept client p.toWorld
      if p.free client then some (p.after (c.map .connection, w)) else none
    | _ => none
  | .close i =>
    (p.vars[i]?).map fun x =>
      let (socket, w) := x.socket.close p.toWorld
      { p with toWorld := w, vars := p.vars.set i { x with socket := socket } }
  | .copy i => (p.vars[i]?).map fun x => { p with vars := p.vars ++ [x] }
  | .openOther fd =>
    if p.free (some fd) then
      some { p with toWorld := p.opened fd, others := p.others ++ [p.files] }
    else none
  | .closeOther fd =>
    match p.owner fd with
    | some f =>
      if f ∈ p.others then
        some { p with toWorld := p.released fd, others := p.others.filter (· ≠ f) }
      else none
    | none => none

/-- Steps after each other. -/
def run (p : Process) : List Action → Option Process
  | [] => some p
  | a :: as => (p.step a).bind fun q => q.run as

/-- No copy of the variable has been closed. -/
def Live (p : Process) (x : Variable) : Prop := ∀ y ∈ p.vars, y.file = x.file → 0 ≤ y.socket.fd

def init : Process := ⟨⟨fun _ => none, 0, 0⟩, [], [], []⟩

end Process

/-! ### What a step does -/

namespace World

variable {w : World} {fd d f : ℕ}

/-- A file is open if a descriptor names it. -/
def IsOpen (w : World) (f : ℕ) : Prop := ∃ d, w.owner d = some f

theorem owner_opened (hfree : w.owner fd = none) :
    (w.opened fd).owner d = some f ↔ (d = fd ∧ f = w.files) ∨ w.owner d = some f := by
  by_cases hd : d = fd
  · subst hd
    simp [opened, hfree, eq_comm]
  · simp [opened, hd]

theorem owner_released :
    (w.released fd).owner d = some f ↔ d ≠ fd ∧ w.owner d = some f := by
  by_cases hd : d = fd
  · subst hd
    simp [released]
  · simp [released, hd]

theorem isOpen_opened (hfree : w.owner fd = none) :
    (w.opened fd).IsOpen f ↔ f = w.files ∨ w.IsOpen f := by
  simp only [IsOpen, owner_opened hfree, exists_or, exists_eq_left]

theorem IsOpen.opened (hfree : w.owner fd = none) (h : w.IsOpen f) : (w.opened fd).IsOpen f :=
  (isOpen_opened hfree).mpr (.inr h)

theorem IsOpen.of_released (h : (w.released fd).IsOpen f) : w.IsOpen f := by
  obtain ⟨d, hd⟩ := h
  exact ⟨d, (owner_released.mp hd).2⟩

/-- All other files stay open. -/
theorem IsOpen.released {g : ℕ} (hown : w.owner fd = some g) (hne : f ≠ g) (h : w.IsOpen f) :
    (w.released fd).IsOpen f := by
  obtain ⟨d, hd⟩ := h
  refine ⟨d, owner_released.mpr ⟨?_, hd⟩⟩
  rintro rfl
  exact hne (Option.some.inj (hd.symm.trans hown))

@[simp] theorem files_opened : (w.opened fd).files = w.files + 1 := rfl
@[simp] theorem addresses_opened : (w.opened fd).addresses = w.addresses := rfl
@[simp] theorem files_released : (w.released fd).files = w.files := rfl
@[simp] theorem addresses_released : (w.released fd).addresses = w.addresses := rfl

end World

theorem memFree_buildSockAddr (allocated : Bool) (w : World) :
    memFree (buildSockAddr allocated w).1 (buildSockAddr allocated w).2 = w := by
  simp [memFree, buildSockAddr]

/-- What a call that makes a socket comes to, given the descriptor of the system. -/
inductive Made (answer : Option ℕ) (w : World) : Except Raised Socket × World → Prop
  | refused (e : Raised) : Made answer w (.error e, w)
  | failed (fd : ℕ) (e : Raised) : answer = some fd → Made answer w (.error e, w.opened fd)
  | made (fd : ℕ) (x : Socket) : answer = some fd → x.fd = fd → Made answer w (.ok x, w.opened fd)

theorem made_connect (port : ℤ) (r : Answers) (w : World) :
    Made r.socket w ((TcpConnection.connect port r w).1.map .connection,
      (TcpConnection.connect port r w).2) := by
  unfold TcpConnection.connect turfrtNetSocket newDescriptor
  cases hs : r.socket with
  | none => exact .refused _
  | some fd =>
    simp only [memFree_buildSockAddr]
    rw [if_neg (by simp)]
    by_cases hstatus : r.status = 0
    · rw [if_neg (by simp [hstatus])]
      exact .made fd _ rfl rfl
    · rw [if_pos hstatus]
      exact .failed fd _ rfl

theorem made_bind (port : ℤ) (r : Answers) (w : World) :
    Made r.socket w ((TcpListener.bind port r w).1.map .listener,
      (TcpListener.bind port r w).2) := by
  unfold TcpListener.bind turfrtNetSocket newDescriptor
  cases hs : r.socket with
  | none => exact .refused _
  | some fd =>
    simp only [memFree_buildSockAddr]
    rw [if_neg (by simp)]
    by_cases hstatus : r.status = 0
    · rw [if_neg (by simp [hstatus])]
      by_cases hlisten : r.listen = 0
      · rw [if_neg (by simp [hlisten])]
        exact .made fd _ rfl rfl
      · rw [if_pos hlisten]
        exact .failed fd _ rfl
    · rw [if_pos hstatus]
      exact .failed fd _ rfl

theorem made_accept (client : Option ℕ) (w : World) :
    Made client w ((TcpListener.accept client w).1.map .connection,
      (TcpListener.accept client w).2) := by
  unfold TcpListener.accept newDescriptor
  cases client with
  | none => exact .refused _
  | some fd =>
    simp only
    rw [if_neg (by simp)]
    exact .made fd _ rfl rfl

theorem Socket.close_of_neg {x : Socket} (w : World) (h : x.fd < 0) : x.close w = (x, w) := by
  cases x with
  | connection c => simp only [Socket.close, TcpConnection.close, if_pos (show c.fd < 0 from h)]
  | listener l => simp only [Socket.close, TcpListener.close, if_pos (show l.fd < 0 from h)]

theorem Socket.close_of_nonneg {x : Socket} (w : World) (h : 0 ≤ x.fd) :
    ∃ y, x.close w = (y, w.released x.fd.toNat) ∧ y.fd = -1 := by
  cases x with
  | connection c =>
    have hc : ¬c.fd < 0 := Int.not_lt.mpr h
    refine ⟨.connection ⟨-1⟩, ?_, rfl⟩
    simp only [Socket.close, TcpConnection.close, turfrtNetClose, if_neg hc, Socket.fd]
  | listener l =>
    have hl : ¬l.fd < 0 := Int.not_lt.mpr h
    refine ⟨.listener ⟨-1⟩, ?_, rfl⟩
    simp only [Socket.close, TcpListener.close, turfrtNetClose, if_neg hl, Socket.fd]

namespace Process

variable {p q : Process} {a : Action}

/-- What a step may change. -/
inductive Change (p : Process) : Action → Process → Prop
  | nothing (a : Action) : Change p a p
  | lost (a : Action) (fd : ℕ) : p.owner fd = none →
    Change p a { p with toWorld := p.opened fd, failed := p.failed ++ [p.files] }
  | gained (a : Action) (fd : ℕ) (x : Socket) : p.owner fd = none → x.fd = fd →
    Change p a { p with toWorld := p.opened fd, vars := p.vars ++ [⟨x, p.files⟩] }
  | closed (i : ℕ) (x : Variable) (y : Socket) : p.vars[i]? = some x → 0 ≤ x.socket.fd →
    y.fd = -1 → Change p (.close i)
      { p with toWorld := p.released x.socket.fd.toNat, vars := p.vars.set i ⟨y, x.file⟩ }
  | copied (i : ℕ) (x : Variable) : p.vars[i]? = some x →
    Change p (.copy i) { p with vars := p.vars ++ [x] }
  | openedOther (fd : ℕ) : p.owner fd = none → Change p (.openOther fd)
      { p with toWorld := p.opened fd, others := p.others ++ [p.files] }
  | closedOther (fd f : ℕ) : p.owner fd = some f → f ∈ p.others → Change p (.closeOther fd)
      { p with toWorld := p.released fd, others := p.others.filter (· ≠ f) }

theorem free_some {fd : ℕ} : p.free (some fd) = true ↔ p.owner fd = none := by
  simp [free]

theorem Change.after {answer : Option ℕ} {made : Except Raised Socket × World}
    (h : Made answer p.toWorld made) (hfree : p.free answer = true) (a : Action) :
    Change p a (p.after made) := by
  cases h with
  | refused e => simpa [Process.after] using Change.nothing a
  | failed fd e hanswer =>
    subst hanswer
    simpa [Process.after] using Change.lost a fd (free_some.mp hfree)
  | made fd x hanswer hx =>
    subst hanswer
    exact .gained a fd x (free_some.mp hfree) hx

theorem step_change (h : p.step a = some q) : Change p a q := by
  cases a with
  | connect port r =>
    obtain ⟨hfree, hq⟩ := Option.ite_none_right_eq_some.mp h
    obtain rfl := Option.some.inj hq
    exact .after (made_connect port r p.toWorld) hfree _
  | bind port r =>
    obtain ⟨hfree, hq⟩ := Option.ite_none_right_eq_some.mp h
    obtain rfl := Option.some.inj hq
    exact .after (made_bind port r p.toWorld) hfree _
  | accept i client =>
    simp only [step] at h
    split at h
    · obtain ⟨hfree, hq⟩ := Option.ite_none_right_eq_some.mp h
      obtain rfl := Option.some.inj hq
      exact .after (made_accept client p.toWorld) hfree _
    · cases h
  | close i =>
    obtain ⟨x, hx, rfl⟩ := Option.map_eq_some_iff.mp h
    obtain hneg | hnonneg := Int.lt_or_le x.socket.fd 0
    · rw [Socket.close_of_neg _ hneg]
      obtain ⟨hi, rfl⟩ := List.getElem?_eq_some_iff.mp hx
      have hset : p.vars.set i ⟨p.vars[i].socket, p.vars[i].file⟩ = p.vars :=
        List.set_getElem_self hi
      simp only [hset]
      exact .nothing _
    · obtain ⟨y, hy, hfd⟩ := Socket.close_of_nonneg p.toWorld hnonneg
      simp only [hy]
      exact .closed i x y hx hnonneg hfd
  | copy i =>
    obtain ⟨x, hx, rfl⟩ := Option.map_eq_some_iff.mp h
    exact .copied i x hx
  | openOther fd =>
    obtain ⟨hfree, hq⟩ := Option.ite_none_right_eq_some.mp h
    obtain rfl := Option.some.inj hq
    exact .openedOther fd (free_some.mp hfree)
  | closeOther fd =>
    simp only [step] at h
    split at h
    · next f hf =>
      obtain ⟨hmem, hq⟩ := Option.ite_none_right_eq_some.mp h
      obtain rfl := Option.some.inj hq
      exact .closedOther fd f hf hmem
    · cases h

end Process

end Net

end TurfLang
