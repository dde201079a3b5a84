import TurfLang.Std.Net.Sockets
import Mathlib.Data.List.Nodup
import Mathlib.Tactic.Tauto

/-!
# Which descriptors are open

A run of a program that uses `net.tr`: what is open, what calls that fail leave behind, and when
`close` closes the file of the connection it is called on. A descriptor is handed out again once it
is closed, so a copy of a closed connection may name a file of somebody else.
-/

namespace TurfLang

namespace Net

namespace Process

variable {p q : Process} {a : Action}

/-! ### Whatever the program does -/

/-- What holds in every run. -/
structure Wf (p : Process) : Prop where
  owner_inj : ∀ {d e f}, p.owner d = some f → p.owner e = some f → d = e
  owner_lt : ∀ {d f}, p.owner d = some f → f < p.files
  var_lt : ∀ {x}, x ∈ p.vars → x.file < p.files
  /-- A variable whose file is open has its descriptor. -/
  at_owner : ∀ {x d}, x ∈ p.vars → p.owner d = some x.file → x.socket.fd = d
  /-- No open file is forgotten. -/
  known : ∀ {f}, p.IsOpen f → f ∈ p.others ∨ f ∈ p.failed ∨ ∃ x ∈ p.vars, x.file = f
  addresses : p.addresses = 0

theorem wf_init : init.Wf where
  owner_inj h := by cases h
  owner_lt h := by cases h
  var_lt h := by cases h
  at_owner h := by cases h
  known := by
    rintro f ⟨d, hd⟩
    cases hd
  addresses := rfl

theorem Wf.owner_inj_opened (h : p.Wf) {fd d e f : ℕ} (hfree : p.owner fd = none)
    (hd : (p.opened fd).owner d = some f) (he : (p.opened fd).owner e = some f) : d = e := by
  rw [World.owner_opened hfree] at hd he
  obtain ⟨rfl, rfl⟩ | hd := hd
  · obtain ⟨rfl, -⟩ | he := he
    · rfl
    · exact absurd (h.owner_lt he) (Nat.lt_irrefl _)
  · obtain ⟨rfl, rfl⟩ | he := he
    · exact absurd (h.owner_lt hd) (Nat.lt_irrefl _)
    · exact h.owner_inj hd he

theorem Wf.owner_lt_opened (h : p.Wf) {fd d f : ℕ} (hfree : p.owner fd = none)
    (hd : (p.opened fd).owner d = some f) : f < p.files + 1 := by
  obtain ⟨-, rfl⟩ | hd := (World.owner_opened hfree).mp hd
  · exact Nat.lt_succ_self _
  · exact Nat.lt_succ_of_lt (h.owner_lt hd)

theorem Wf.owner_inj_released (h : p.Wf) {fd d e f : ℕ} (hd : (p.released fd).owner d = some f)
    (he : (p.released fd).owner e = some f) : d = e :=
  h.owner_inj (World.owner_released.mp hd).2 (World.owner_released.mp he).2

theorem Wf.owner_lt_released (h : p.Wf) {fd d f : ℕ} (hd : (p.released fd).owner d = some f) :
    f < p.files :=
  h.owner_lt (World.owner_released.mp hd).2

theorem Wf.at_owner_opened (h : p.Wf) {fd d : ℕ} {x : Variable} (hfree : p.owner fd = none)
    (hx : x ∈ p.vars) (hd : (p.opened fd).owner d = some x.file) : x.socket.fd = d := by
  obtain ⟨-, hfile⟩ | hd := (World.owner_opened hfree).mp hd
  · exact absurd (h.var_lt hx) (hfile ▸ Nat.lt_irrefl _)
  · exact h.at_owner hx hd

theorem mem_set_of_ne {vars : List Variable} {i : ℕ} {x y z : Variable}
    (hx : vars[i]? = some x) (hy : y ∈ vars) (hne : y ≠ x) : y ∈ vars.set i z := by
  obtain ⟨hi, rfl⟩ := List.getElem?_eq_some_iff.mp hx
  obtain ⟨j, hj, rfl⟩ := List.mem_iff_getElem.mp hy
  have hij : i ≠ j := by
    rintro rfl
    exact hne rfl
  refine List.mem_iff_getElem.mpr ⟨j, by simpa using hj, ?_⟩
  rw [List.getElem_set_ne hij]

theorem mem_set_self {vars : List Variable} {i : ℕ} {x : Variable} (hx : vars[i]? = some x)
    (z : Variable) : z ∈ vars.set i z :=
  List.mem_set (List.getElem?_eq_some_iff.mp hx).1 z

theorem Wf.change (h : p.Wf) (hc : Change p a q) : q.Wf := by
  cases hc with
  | nothing => exact h
  | lost _ fd hfree =>
    exact {
      owner_inj := h.owner_inj_opened hfree
      owner_lt := h.owner_lt_opened hfree
      var_lt := fun hx => Nat.lt_succ_of_lt (h.var_lt hx)
      at_owner := h.at_owner_opened hfree
      known := fun {f} hf => by
        obtain rfl | hf := (World.isOpen_opened hfree).mp hf
        · simp
        · have := h.known hf
          simp only [List.mem_append]
          tauto
      addresses := h.addresses }
  | gained _ fd x hfree hx =>
    exact {
      owner_inj := h.owner_inj_opened hfree
      owner_lt := h.owner_lt_opened hfree
      var_lt := fun hy => by
        obtain hy | hy := List.mem_append.mp hy
        · exact Nat.lt_succ_of_lt (h.var_lt hy)
        · obtain rfl := List.mem_singleton.mp hy
          exact Nat.lt_succ_self _
      at_owner := fun {y d} hy hd => by
        obtain hy | hy := List.mem_append.mp hy
        · exact h.at_owner_opened hfree hy hd
        · obtain rfl := List.mem_singleton.mp hy
          obtain ⟨rfl, -⟩ | hd := (World.owner_opened hfree).mp hd
          · exact hx
          · exact absurd (h.owner_lt hd) (Nat.lt_irrefl _)
      known := fun {f} hf => by
        obtain rfl | hf := (World.isOpen_opened hfree).mp hf
        · exact .inr (.inr ⟨_, List.mem_append_right _ (List.mem_singleton_self _), rfl⟩)
        · obtain hf | hf | ⟨y, hy, rfl⟩ := h.known hf
          · exact .inl hf
          · exact .inr (.inl hf)
          · exact .inr (.inr ⟨y, List.mem_append_left _ hy, rfl⟩)
      addresses := h.addresses }
  | closed i x y hx hnonneg hy =>
    have hmem := List.mem_of_getElem? hx
    exact {
      owner_inj := h.owner_inj_released
      owner_lt := h.owner_lt_released
      var_lt := fun hz => by
        obtain hz | rfl := List.mem_or_eq_of_mem_set hz
        · exact h.var_lt hz
        · show x.file < p.files
          exact h.var_lt hmem
      at_owner := fun {z d} hz hd => by
        obtain ⟨hne, hd⟩ := World.owner_released.mp hd
        obtain hz | rfl := List.mem_or_eq_of_mem_set hz
        · exact h.at_owner hz hd
        · -- the file of `x` would be open elsewhere than at its descriptor
          have hat := h.at_owner hmem hd
          omega
      known := fun {f} hf => by
        obtain ⟨d, hd⟩ := hf
        obtain hf | hf | ⟨z, hz, rfl⟩ := h.known ⟨d, (World.owner_released.mp hd).2⟩
        · exact .inl hf
        · exact .inr (.inl hf)
        · refine .inr (.inr ?_)
          by_cases hzx : z = x
          · exact ⟨_, mem_set_self hx _, by rw [hzx]⟩
          · exact ⟨z, mem_set_of_ne hx hz hzx, rfl⟩
      addresses := h.addresses }
  | copied i x hx =>
    have hmem := List.mem_of_getElem? hx
    have hvars : ∀ {y}, y ∈ p.vars ++ [x] → y ∈ p.vars := fun hy => by
      obtain hy | hy := List.mem_append.mp hy
      · exact hy
      · exact List.mem_singleton.mp hy ▸ hmem
    exact {
      owner_inj := h.owner_inj
      owner_lt := h.owner_lt
      var_lt := fun hy => h.var_lt (hvars hy)
      at_owner := fun hy => h.at_owner (hvars hy)
      known := fun hf => by
        obtain hf | hf | ⟨y, hy, hfile⟩ := h.known hf
        · exact .inl hf
        · exact .inr (.inl hf)
        · exact .inr (.inr ⟨y, List.mem_append_left _ hy, hfile⟩)
      addresses := h.addresses }
  | openedOther fd hfree =>
    exact {
      owner_inj := h.owner_inj_opened hfree
      owner_lt := h.owner_lt_opened hfree
      var_lt := fun hx => Nat.lt_succ_of_lt (h.var_lt hx)
      at_owner := h.at_owner_opened hfree
      known := fun {f} hf => by
        obtain rfl | hf := (World.isOpen_opened hfree).mp hf
        · simp
        · have := h.known hf
          simp only [List.mem_append]
          tauto
      addresses := h.addresses }
  | closedOther fd f hf hmem =>
    exact {
      owner_inj := h.owner_inj_released
      owner_lt := h.owner_lt_released
      var_lt := h.var_lt
      at_owner := fun hx hd => h.at_owner hx (World.owner_released.mp hd).2
      known := fun {g} hg => by
        obtain ⟨d, hd⟩ := hg
        obtain ⟨hne, hd⟩ := World.owner_released.mp hd
        have hgf : g ≠ f := fun heq => hne (h.owner_inj hd (heq ▸ hf))
        have := h.known ⟨d, hd⟩
        simpa [hgf] using this
      addresses := h.addresses }

theorem Wf.run (h : p.Wf) {as : List Action} (hrun : p.run as = some q) : q.Wf := by
  induction as generalizing p with
  | nil => exact Option.some.inj hrun ▸ h
  | cons a as ih =>
    obtain ⟨m, hm, hrest⟩ := Option.bind_eq_some_iff.mp hrun
    exact ih (h.change (step_change hm)) hrest

/-! ### Closed once -/

/-- A `close` of a variable that is not closed comes before that of every copy. -/
def Proper (p : Process) : Action → Prop
  | .close i => ∀ x, p.vars[i]? = some x → 0 ≤ x.socket.fd → p.Live x
  | _ => True

/-- What holds as long as nothing is closed through a copy of what is closed. -/
structure Exact (p : Process) : Prop extends Wf p where
  held : ∀ {x}, x ∈ p.vars → p.Live x → p.IsOpen x.file
  failed_open : ∀ {f}, f ∈ p.failed → p.IsOpen f
  others_open : ∀ {f}, f ∈ p.others → p.IsOpen f
  var_apart : ∀ {x}, x ∈ p.vars → x.file ∉ p.failed ∧ x.file ∉ p.others
  apart : ∀ {f}, f ∈ p.failed → f ∉ p.others

theorem exact_init : init.Exact :=
  { wf_init with
    held := fun h => by cases h
    failed_open := fun h => by cases h
    others_open := fun h => by cases h
    var_apart := fun h => by cases h
    apart := fun h => by cases h }

theorem Exact.files_lt (h : p.Exact) {f : ℕ} (hf : f ∈ p.failed ∨ f ∈ p.others) : f < p.files := by
  obtain ⟨d, hd⟩ := hf.elim h.failed_open h.others_open
  exact h.owner_lt hd

/-- A variable that is live is open at its own descriptor. -/
theorem Exact.owner_of_live (h : p.Exact) {x : Variable} (hx : x ∈ p.vars) (hlive : p.Live x) :
    p.owner x.socket.fd.toNat = some x.file := by
  obtain ⟨d, hd⟩ := h.held hx hlive
  rw [h.at_owner hx hd, Int.toNat_natCast]
  exact hd

theorem Wf.live_of_open (h : p.Wf) {x : Variable} (hopen : p.IsOpen x.file) : p.Live x := by
  obtain ⟨d, hd⟩ := hopen
  intro y hy hfile
  rw [h.at_owner hy (hfile ▸ hd)]
  exact Int.natCast_nonneg d

theorem Exact.change (h : p.Exact) (hc : Change p a q) (hproper : p.Proper a) : q.Exact := by
  have hwf := h.toWf.change hc
  cases hc with
  | nothing => exact h
  | lost _ fd hfree =>
    exact {
      hwf with
      held := fun hx hlive => .opened hfree (h.held hx hlive)
      failed_open := fun hf => by
        obtain hf | hf := List.mem_append.mp hf
        · exact .opened hfree (h.failed_open hf)
        · exact (World.isOpen_opened hfree).mpr (.inl (List.mem_singleton.mp hf))
      others_open := fun hf => .opened hfree (h.others_open hf)
      var_apart := fun hx => by
        have hlt := h.var_lt hx
        have hapart := h.var_apart hx
        refine ⟨fun hf => ?_, hapart.2⟩
        obtain hf | hf := List.mem_append.mp hf
        · exact hapart.1 hf
        · exact Nat.ne_of_lt hlt (List.mem_singleton.mp hf)
      apart := fun hf hother => by
        obtain hf | hf := List.mem_append.mp hf
        · exact h.apart hf hother
        · exact Nat.ne_of_lt (h.files_lt (.inr hother)) (List.mem_singleton.mp hf) }
  | gained _ fd x hfree hx =>
    exact {
      hwf with
      held := fun {y} hy hlive => by
        obtain hy | hy := List.mem_append.mp hy
        · exact .opened hfree
            (h.held hy fun z hz hfile => hlive z (List.mem_append_left _ hz) hfile)
        · obtain rfl := List.mem_singleton.mp hy
          exact (World.isOpen_opened hfree).mpr (.inl rfl)
      failed_open := fun hf => .opened hfree (h.failed_open hf)
      others_open := fun hf => .opened hfree (h.others_open hf)
      var_apart := fun {y} hy => by
        obtain hy | hy := List.mem_append.mp hy
        · exact h.var_apart hy
        · obtain rfl := List.mem_singleton.mp hy
          exact ⟨fun hf => Nat.ne_of_lt (h.files_lt (.inl hf)) rfl,
            fun hf => Nat.ne_of_lt (h.files_lt (.inr hf)) rfl⟩
      apart := h.apart }
  | closed i x y hx hnonneg hy =>
    have hmem := List.mem_of_getElem? hx
    have hown := h.owner_of_live hmem (hproper x hx hnonneg)
    have hapart := h.var_apart hmem
    exact {
      hwf with
      held := fun {z} hz hlive => by
        have hne : z.file ≠ x.file := fun heq => by
          have hfd := hlive _ (mem_set_self hx _) heq.symm
          simp only [hy] at hfd
          omega
        obtain hz | rfl := List.mem_or_eq_of_mem_set hz
        · refine .released hown hne (h.held hz fun v hv hfile => ?_)
          refine hlive v (mem_set_of_ne hx hv fun heq => hne ?_) hfile
          rw [← hfile, heq]
        · exact absurd rfl hne
      failed_open := fun hf =>
        .released hown (fun heq => hapart.1 (heq ▸ hf)) (h.failed_open hf)
      others_open := fun hf =>
        .released hown (fun heq => hapart.2 (heq ▸ hf)) (h.others_open hf)
      var_apart := fun {z} hz => by
        obtain hz | rfl := List.mem_or_eq_of_mem_set hz
        · exact h.var_apart hz
        · exact hapart
      apart := h.apart }
  | copied i x hx =>
    have hmem := List.mem_of_getElem? hx
    have hvars : ∀ {y}, y ∈ p.vars ++ [x] → y ∈ p.vars := fun hy => by
      obtain hy | hy := List.mem_append.mp hy
      · exact hy
      · exact List.mem_singleton.mp hy ▸ hmem
    exact {
      hwf with
      held := fun hy hlive =>
        h.held (hvars hy) fun z hz hfile => hlive z (List.mem_append_left _ hz) hfile
      failed_open := h.failed_open
      others_open := h.others_open
      var_apart := fun hy => h.var_apart (hvars hy)
      apart := h.apart }
  | openedOther fd hfree =>
    exact {
      hwf with
      held := fun hx hlive => .opened hfree (h.held hx hlive)
      failed_open := fun hf => .opened hfree (h.failed_open hf)
      others_open := fun hf => by
        obtain hf | hf := List.mem_append.mp hf
        · exact .opened hfree (h.others_open hf)
        · exact (World.isOpen_opened hfree).mpr (.inl (List.mem_singleton.mp hf))
      var_apart := fun hx => by
        have hlt := h.var_lt hx
        have hapart := h.var_apart hx
        refine ⟨hapart.1, fun hf => ?_⟩
        obtain hf | hf := List.mem_append.mp hf
        · exact hapart.2 hf
        · exact Nat.ne_of_lt hlt (List.mem_singleton.mp hf)
      apart := fun hf hother => by
        obtain hother | hother := List.mem_append.mp hother
        · exact h.apart hf hother
        · exact Nat.ne_of_lt (h.files_lt (.inl hf)) (List.mem_singleton.mp hother) }
  | closedOther fd f hf hmem =>
    exact {
      hwf with
      held := fun hx hlive =>
        .released hf (fun heq => (h.var_apart hx).2 (heq ▸ hmem)) (h.held hx hlive)
      failed_open := fun hg =>
        .released hf (fun heq => h.apart hg (heq ▸ hmem)) (h.failed_open hg)
      others_open := fun {g} hg => by
        obtain ⟨hg, hne⟩ := List.mem_filter.mp hg
        exact .released hf (by simpa using hne) (h.others_open hg)
      var_apart := fun hx =>
        ⟨(h.var_apart hx).1, fun hg => (h.var_apart hx).2 (List.mem_filter.mp hg).1⟩
      apart := fun hg hother => h.apart hg (List.mem_filter.mp hother).1 }

/-- A run in which each step is proper. -/
def ProperRun (p : Process) : List Action → Prop
  | [] => True
  | a :: as => p.Proper a ∧ ∀ q, p.step a = some q → q.ProperRun as

theorem Exact.run (h : p.Exact) {as : List Action} (hproper : p.ProperRun as)
    (hrun : p.run as = some q) : q.Exact := by
  induction as generalizing p with
  | nil => exact Option.some.inj hrun ▸ h
  | cons a as ih =>
    obtain ⟨m, hm, hrest⟩ := Option.bind_eq_some_iff.mp hrun
    exact ih (h.change (step_change hm) hproper.1) (hproper.2 m hm) hrest

theorem Exact.isOpen_iff (h : p.Exact) (f : ℕ) :
    p.IsOpen f ↔ f ∈ p.others ∨ f ∈ p.failed ∨ ∃ x ∈ p.vars, x.file = f ∧ p.Live x := by
  constructor
  · intro hf
    obtain hother | hfailed | ⟨x, hx, rfl⟩ := h.known hf
    · exact .inl hother
    · exact .inr (.inl hfailed)
    · exact .inr (.inr ⟨x, hx, rfl, h.live_of_open hf⟩)
  · rintro (hother | hfailed | ⟨x, hx, rfl, hlive⟩)
    · exact h.others_open hother
    · exact h.failed_open hfailed
    · exact h.held hx hlive

theorem connect_failed (port : ℤ) (r : Answers) :
    (p.after ((TcpConnection.connect port r p.toWorld).1.map .connection,
      (TcpConnection.connect port r p.toWorld).2)).failed.length =
      p.failed.length + if (Action.connect port r).leaves then 1 else 0 := by
  unfold TcpConnection.connect turfrtNetSocket newDescriptor Action.leaves
  cases hs : r.socket with
  | none => simp [Process.after, Except.map, hs]
  | some fd =>
    simp only [memFree_buildSockAddr]
    rw [if_neg (by simp)]
    by_cases hstatus : r.status = 0
    · simp [Process.after, Except.map, hs, hstatus]
    · simp [Process.after, Except.map, hs, hstatus]

theorem bind_failed (port : ℤ) (r : Answers) :
    (p.after ((TcpListener.bind port r p.toWorld).1.map .listener,
      (TcpListener.bind port r p.toWorld).2)).failed.length =
      p.failed.length + if (Action.bind port r).leaves then 1 else 0 := by
  unfold TcpListener.bind turfrtNetSocket newDescriptor Action.leaves
  cases hs : r.socket with
  | none => simp [Process.after, Except.map, hs]
  | some fd =>
    simp only [memFree_buildSockAddr]
    rw [if_neg (by simp)]
    by_cases hstatus : r.status = 0
    · by_cases hlisten : r.listen = 0
      · simp [Process.after, Except.map, hs, hstatus, hlisten]
      · simp [Process.after, Except.map, hs, hstatus, hlisten]
    · simp [Process.after, Except.map, hs, hstatus]

theorem accept_failed (client : Option ℕ) :
    (p.after ((TcpListener.accept client p.toWorld).1.map .connection,
      (TcpListener.accept client p.toWorld).2)).failed = p.failed := by
  unfold TcpListener.accept newDescriptor
  cases client with
  | none => simp [Process.after, Except.map]
  | some fd => simp [Process.after, Except.map]

theorem step_failed (h : p.step a = some q) :
    q.failed.length = p.failed.length + if a.leaves then 1 else 0 := by
  cases a with
  | connect port r =>
    obtain ⟨hfree, hq⟩ := Option.ite_none_right_eq_some.mp h
    exact Option.some.inj hq ▸ connect_failed port r
  | bind port r =>
    obtain ⟨hfree, hq⟩ := Option.ite_none_right_eq_some.mp h
    exact Option.some.inj hq ▸ bind_failed port r
  | accept i client =>
    simp only [step] at h
    split at h
    · obtain ⟨hfree, hq⟩ := Option.ite_none_right_eq_some.mp h
      rw [← Option.some.inj hq, accept_failed]
      rfl
    · cases h
  | close i =>
    obtain ⟨x, hx, rfl⟩ := Option.map_eq_some_iff.mp h
    rfl
  | copy i =>
    obtain ⟨x, hx, rfl⟩ := Option.map_eq_some_iff.mp h
    rfl
  | openOther fd =>
    obtain ⟨hfree, hq⟩ := Option.ite_none_right_eq_some.mp h
    exact Option.some.inj hq ▸ rfl
  | closeOther fd =>
    simp only [step] at h
    split at h
    · obtain ⟨hmem, hq⟩ := Option.ite_none_right_eq_some.mp h
      exact Option.some.inj hq ▸ rfl
    · cases h

theorem run_failed {as : List Action} (h : p.run as = some q) :
    q.failed.length = p.failed.length + as.countP Action.leaves := by
  induction as generalizing p with
  | nil => rw [Option.some.inj h, List.countP_nil, Nat.add_zero]
  | cons a as ih =>
    obtain ⟨m, hm, hrest⟩ := Option.bind_eq_some_iff.mp h
    rw [ih hrest, step_failed hm, List.countP_cons]
    omega

/-- In every run no address block is left, each call that fails after it has made its socket leaves
a file behind, and any other open file is one of the rest of the program, or a variable with its
descriptor has it. -/
theorem run_keeps_track {as : List Action} (hrun : init.run as = some q) :
    q.addresses = 0 ∧ q.failed.length = as.countP Action.leaves ∧ ∀ d f, q.owner d = some f →
      f ∈ q.others ∨ f ∈ q.failed ∨ ∃ x ∈ q.vars, x.file = f ∧ x.socket.fd = d := by
  have h := wf_init.run hrun
  refine ⟨h.addresses, by rw [run_failed hrun]; exact Nat.zero_add _, fun d f hd => ?_⟩
  obtain hother | hfailed | ⟨x, hx, rfl⟩ := h.known ⟨d, hd⟩
  · exact .inl hother
  · exact .inr (.inl hfailed)
  · exact .inr (.inr ⟨x, hx, rfl, h.at_owner hx hd⟩)

def refusedConnection : List Action := [.connect 80 ⟨some 3, true, -1, 0⟩]

theorem run_keeps_track_refusedConnection : ∃ q, init.run refusedConnection = some q ∧
    q.addresses = 0 ∧ q.failed.length = 1 ∧ q.owner 3 = some 0 := by
  have h := run_keeps_track (show init.run refusedConnection = some _ from rfl)
  exact ⟨_, rfl, h.1, h.2.1, rfl⟩

/-- Where nothing is closed through a copy of what is closed, exactly the files of the rest of the
program, of calls that failed and of variables without a closed copy are open; and a `close` of
another variable would close its own file exactly if no copy of it has been closed. -/
theorem run_exact {as : List Action} (hproper : init.ProperRun as)
    (hrun : init.run as = some q) :
    (∀ f, q.IsOpen f ↔ f ∈ q.others ∨ f ∈ q.failed ∨ ∃ x ∈ q.vars, x.file = f ∧ q.Live x) ∧
      ∀ x ∈ q.vars, 0 ≤ x.socket.fd →
        (q.owner x.socket.fd.toNat = some x.file ↔ q.Live x) := by
  have h := exact_init.run hproper hrun
  exact ⟨h.isOpen_iff, fun x hx _ => ⟨fun hown => h.live_of_open ⟨_, hown⟩, h.owner_of_live hx⟩⟩

def closedWithCopy : List Action :=
  [.connect 80 ⟨some 3, true, 0, 0⟩, .copy 0, .openOther 4, .close 0]

theorem properRun_closedWithCopy : init.ProperRun closedWithCopy := by
  refine ⟨trivial, fun q₁ h₁ => ⟨trivial, fun q₂ h₂ => ⟨trivial, fun q₃ h₃ => ?_⟩⟩⟩
  refine ⟨?_, fun _ _ => trivial⟩
  obtain rfl := Option.some.inj h₁
  obtain rfl := Option.some.inj h₂
  obtain rfl := Option.some.inj h₃
  intro x _ _ y hy _
  have hall : ∀ y ∈ [(⟨.connection ⟨3⟩, 0⟩ : Variable), ⟨.connection ⟨3⟩, 0⟩], 0 ≤ y.socket.fd := by
    decide
  exact hall y hy

theorem run_exact_closedWithCopy : ∃ q, init.run closedWithCopy = some q ∧
    (q.IsOpen 0 ↔ 0 ∈ q.others ∨ 0 ∈ q.failed ∨ ∃ x ∈ q.vars, x.file = 0 ∧ q.Live x) := by
  have h := run_exact properRun_closedWithCopy (show init.run closedWithCopy = some _ from rfl)
  exact ⟨_, rfl, h.1 0⟩

-- The second `close` is given the descriptor of another file.
example : (init.run [.connect 80 ⟨some 3, true, 0, 0⟩, .copy 0, .close 0, .openOther 3,
    .close 1]).map (fun q => (q.owner 3, q.others)) = some (none, [1]) := rfl

/-! ### Programs without copies -/

/-- No two variables have one file. -/
def Distinct (p : Process) : Prop := (p.vars.map Variable.file).Nodup

theorem Distinct.live (h : p.Distinct) {x : Variable} (hx : x ∈ p.vars) :
    p.Live x ↔ 0 ≤ x.socket.fd := by
  constructor
  · exact fun hlive => hlive x hx rfl
  · intro hnonneg y hy hfile
    rwa [List.inj_on_of_nodup_map h hy hx hfile]

theorem Distinct.change (h : p.Distinct) (hwf : p.Wf) (hc : Change p a q)
    (hcopy : ∀ i, a ≠ .copy i) : q.Distinct := by
  cases hc with
  | nothing => exact h
  | lost _ fd hfree => exact h
  | gained _ fd x hfree hx =>
    simp only [Distinct, List.map_append, List.map_cons, List.map_nil]
    refine List.Nodup.append h (List.nodup_singleton _) ?_
    rw [List.disjoint_singleton]
    intro hmem
    obtain ⟨y, hy, hfile⟩ := List.mem_map.mp hmem
    exact Nat.ne_of_lt (hwf.var_lt hy) hfile
  | closed i x y hx hnonneg hy =>
    obtain ⟨hi, rfl⟩ := List.getElem?_eq_some_iff.mp hx
    have hself : (p.vars.map Variable.file)[i]? = some p.vars[i].file := by simp [hi]
    obtain ⟨hi', heq⟩ := List.getElem?_eq_some_iff.mp hself
    rw [Distinct, List.map_set]
    exact (heq ▸ List.set_getElem_self hi').symm ▸ h
  | copied i x hx => exact absurd rfl (hcopy i)
  | openedOther fd hfree => exact h
  | closedOther fd f hf hmem => exact h

theorem Distinct.run (h : p.Distinct) (hex : p.Exact) {as : List Action}
    (hcopy : ∀ i, .copy i ∉ as) (hrun : p.run as = some q) : q.Distinct ∧ q.Exact := by
  induction as generalizing p with
  | nil => exact Option.some.inj hrun ▸ ⟨h, hex⟩
  | cons a as ih =>
    obtain ⟨m, hm, hrest⟩ := Option.bind_eq_some_iff.mp hrun
    have hc := step_change hm
    have hproper : p.Proper a := by
      cases a with
      | close i => exact fun x hx hnonneg => (h.live (List.mem_of_getElem? hx)).mpr hnonneg
      | _ => trivial
    have hne : ∀ i, a ≠ .copy i := fun i heq => hcopy i (heq ▸ List.mem_cons_self)
    exact ih (h.change hex.toWf hc hne) (hex.change hc hproper)
      (fun i hi => hcopy i (List.mem_cons_of_mem _ hi)) hrest

/-- A program that never copies a socket has open exactly what it has not closed, apart from what
calls that failed have left behind, and each `close` closes the file of its own. -/
theorem run_exact_of_no_copies {as : List Action} (hcopy : ∀ i, .copy i ∉ as)
    (hrun : init.run as = some q) :
    (∀ f, q.IsOpen f ↔
      f ∈ q.others ∨ f ∈ q.failed ∨ ∃ x ∈ q.vars, x.file = f ∧ 0 ≤ x.socket.fd) ∧
      ∀ x ∈ q.vars, 0 ≤ x.socket.fd → q.owner x.socket.fd.toNat = some x.file := by
  obtain ⟨hdistinct, h⟩ := Distinct.run (p := init) List.nodup_nil exact_init hcopy hrun
  constructor
  · intro f
    rw [h.isOpen_iff]
    have hlive : ∀ x, (x ∈ q.vars ∧ x.file = f ∧ q.Live x) ↔
        (x ∈ q.vars ∧ x.file = f ∧ 0 ≤ x.socket.fd) := fun x =>
      and_congr_right fun hx => and_congr_right fun _ => hdistinct.live hx
    simp only [hlive]
  · intro x hx hnonneg
    exact h.owner_of_live hx ((hdistinct.live hx).mpr hnonneg)

def oneClient : List Action := [.bind 80 ⟨some 3, true, 0, 0⟩, .accept 0 (some 4), .close 1]

theorem run_exact_of_no_copies_oneClient : ∃ q, init.run oneClient = some q ∧
    (q.IsOpen 1 ↔ 1 ∈ q.others ∨ 1 ∈ q.failed ∨ ∃ x ∈ q.vars, x.file = 1 ∧ 0 ≤ x.socket.fd) := by
  have h := run_exact_of_no_copies (fun i hi => by simp [oneClient] at hi)
    (show init.run oneClient = some _ from rfl)
  exact ⟨_, rfl, h.1 1⟩

end Process

end Net

end TurfLang
