import TurfLang.Std.Net.SocketRuns

/-!
# `lib/std/http/http.tr`: `Server.listen`

The connections of a server. What a handler does is any run of the program that closes nothing
through the response it is given, and anything else only once.
-/

namespace TurfLang

open Net Process

namespace Http

/-- A step that may be taken by the handler of the connection with the file `n`. -/
def Spares (n : ℕ) (p : Process) (a : Action) : Prop :=
  p.Proper a ∧ ∀ i x, a = .close i → p.vars[i]? = some x → x.file ≠ n

def Handles (n : ℕ) (p : Process) : List Action → Prop
  | [] => True
  | a :: as => Spares n p a ∧ ∀ q, p.step a = some q → Handles n q as

namespace Server

/-- The start of a turn of the loop: the connection, its copy for `parse_request` and the one in the
response. -/
def taken (p : Process) (listener client : ℕ) : List Action :=
  [.accept listener (some client), .copy p.vars.length, .copy p.vars.length]

/-- A turn of the loop: no handler is run where there is no route, and the deferred `close` is the
last step in any case. -/
def turn (p : Process) (listener : ℕ) (client : Option ℕ) (handler : List Action) :
    Option Process :=
  match client with
  | none => p.run [.accept listener none]
  | some fd => p.run (taken p listener fd ++ handler ++ [.close p.vars.length])

/-- The loop, with the files of the connections that it has served. -/
inductive Listens (listener : ℕ) (p : Process) : List ℕ → Process → Prop
  | start : Listens listener p [] p
  | skipped {ns : List ℕ} {m q : Process} : Listens listener p ns m →
    turn m listener none [] = some q → Listens listener p ns q
  | served {ns : List ℕ} {m q : Process} (fd : ℕ) (handler : List Action) :
    Listens listener p ns m →
    (∀ r, m.run (taken m listener fd) = some r → Handles m.files r handler) →
    turn m listener (some fd) handler = some q → Listens listener p (ns ++ [m.files]) q

end Server

end Http

namespace Net.Process

variable {p q : Process} {a : Action}

theorem run_append (as bs : List Action) : p.run (as ++ bs) = (p.run as).bind (·.run bs) := by
  induction as generalizing p with
  | nil => rfl
  | cons a as ih =>
    simp only [List.cons_append, Process.run, Option.bind_assoc, ih]

/-- A number is not used again, so what is closed stays closed. -/
theorem Change.isOpen_of_lt (hc : Change p a q) {f : ℕ} (hlt : f < p.files) (hf : q.IsOpen f) :
    p.IsOpen f := by
  have hopened : ∀ {fd}, p.owner fd = none → (p.opened fd).IsOpen f → p.IsOpen f :=
    fun hfree hf => ((World.isOpen_opened hfree).mp hf).resolve_left (Nat.ne_of_lt hlt)
  cases hc with
  | nothing => exact hf
  | lost _ fd hfree => exact hopened hfree hf
  | gained _ fd x hfree hx => exact hopened hfree hf
  | closed i x y hx hnonneg hy => exact hf.of_released
  | copied i x hx => exact hf
  | openedOther fd hfree => exact hopened hfree hf
  | closedOther fd g hg hmem => exact hf.of_released

theorem Change.files_le (hc : Change p a q) : p.files ≤ q.files := by
  cases hc <;> first | exact Nat.le_refl _ | exact Nat.le_succ _

theorem run_isOpen_of_lt {as : List Action} (hrun : p.run as = some q) {f : ℕ}
    (hlt : f < p.files) (hf : q.IsOpen f) : p.IsOpen f := by
  induction as generalizing p with
  | nil => exact Option.some.inj hrun ▸ hf
  | cons a as ih =>
    obtain ⟨m, hm, hrest⟩ := Option.bind_eq_some_iff.mp hrun
    have hc := step_change hm
    exact hc.isOpen_of_lt hlt (ih hrest (Nat.lt_of_lt_of_le hlt hc.files_le))

theorem run_files_le {as : List Action} (hrun : p.run as = some q) : p.files ≤ q.files := by
  induction as generalizing p with
  | nil => exact Option.some.inj hrun ▸ Nat.le_refl _
  | cons a as ih =>
    obtain ⟨m, hm, hrest⟩ := Option.bind_eq_some_iff.mp hrun
    exact Nat.le_trans (step_change hm).files_le (ih hrest)

end Net.Process

namespace Http

variable {p q : Process} {a : Action} {n k : ℕ}

/-- The connection with the file `n` is in variable `k`, and no copy of it is closed. -/
structure Serving (n k : ℕ) (p : Process) : Prop where
  lt : n < p.files
  conn : ∃ x, p.vars[k]? = some x ∧ x.file = n ∧ 0 ≤ x.socket.fd
  live : ∀ y ∈ p.vars, y.file = n → 0 ≤ y.socket.fd

theorem Serving.change (h : Serving n k p) (hc : Change p a q) (ha : Spares n p a) :
    Serving n k q := by
  obtain ⟨x, hx, hfile, hfd⟩ := h.conn
  have hk : k < p.vars.length := (List.getElem?_eq_some_iff.mp hx).1
  have happend : ∀ z, (p.vars ++ [z])[k]? = some x := fun z => by
    rw [List.getElem?_append_left hk, hx]
  cases hc with
  | nothing => exact h
  | lost _ fd hfree => exact ⟨Nat.lt_succ_of_lt h.lt, ⟨x, hx, hfile, hfd⟩, h.live⟩
  | gained _ fd y hfree hy =>
    refine ⟨Nat.lt_succ_of_lt h.lt, ⟨x, happend _, hfile, hfd⟩, fun z hz hzn => ?_⟩
    obtain hz | hz := List.mem_append.mp hz
    · exact h.live z hz hzn
    · obtain rfl := List.mem_singleton.mp hz
      exact absurd hzn.symm (Nat.ne_of_lt h.lt)
  | closed i y z hy hnonneg hz =>
    have hyn := ha.2 i y rfl hy
    have hik : i ≠ k := by
      rintro rfl
      obtain rfl := Option.some.inj (hx.symm.trans hy)
      exact hyn hfile
    refine ⟨h.lt, ⟨x, ?_, hfile, hfd⟩, fun v hv hvn => ?_⟩
    · rw [List.getElem?_set_ne hik, hx]
    · obtain hv | rfl := List.mem_or_eq_of_mem_set hv
      · exact h.live v hv hvn
      · exact absurd hvn hyn
  | copied i y hy =>
    refine ⟨h.lt, ⟨x, happend _, hfile, hfd⟩, fun v hv hvn => ?_⟩
    obtain hv | hv := List.mem_append.mp hv
    · exact h.live v hv hvn
    · obtain rfl := List.mem_singleton.mp hv
      exact h.live v (List.mem_of_getElem? hy) hvn
  | openedOther fd hfree => exact ⟨Nat.lt_succ_of_lt h.lt, ⟨x, hx, hfile, hfd⟩, h.live⟩
  | closedOther fd f hf hmem => exact ⟨h.lt, ⟨x, hx, hfile, hfd⟩, h.live⟩

theorem Serving.run (h : Serving n k p) (hex : p.Exact) {as : List Action}
    (has : Handles n p as) (hrun : p.run as = some q) : Serving n k q ∧ q.Exact := by
  induction as generalizing p with
  | nil => exact Option.some.inj hrun ▸ ⟨h, hex⟩
  | cons a as ih =>
    obtain ⟨m, hm, hrest⟩ := Option.bind_eq_some_iff.mp hrun
    have hc := step_change hm
    exact ih (h.change hc has.1) (hex.change hc has.1.1) (has.2 m hm) hrest

theorem serving_accept {listener fd : ℕ} (hex : p.Exact)
    (hstep : p.step (.accept listener (some fd)) = some q) :
    Serving p.files p.vars.length q := by
  simp only [Process.step] at hstep
  split at hstep
  · obtain ⟨hfree, hq⟩ := Option.ite_none_right_eq_some.mp hstep
    obtain rfl := Option.some.inj hq
    have hnonneg : (0 : ℤ) ≤ fd := Int.natCast_nonneg fd
    refine ⟨Nat.lt_succ_self _, ⟨⟨.connection ⟨fd⟩, p.files⟩, ?_, rfl, hnonneg⟩,
      fun y hy hfile => ?_⟩
    · exact List.getElem?_concat_length
    · obtain hy | hy := List.mem_append.mp hy
      · exact absurd hfile (Nat.ne_of_lt (hex.var_lt hy))
      · obtain rfl := List.mem_singleton.mp hy
        exact hnonneg
  · cases hstep

theorem handles_copies (n k : ℕ) (p : Process) : Handles n p [.copy k, .copy k] :=
  ⟨⟨trivial, fun _ _ h => by cases h⟩,
    fun _ _ => ⟨⟨trivial, fun _ _ h => by cases h⟩, fun _ _ => trivial⟩⟩

theorem Serving.close (h : Serving n k p) (hex : p.Exact) (hstep : p.step (.close k) = some q) :
    q.Exact ∧ n < q.files ∧ ¬q.IsOpen n := by
  obtain ⟨x, hx, rfl, hfd⟩ := h.conn
  have hproper : p.Proper (.close k) := fun y hy _ => by
    obtain rfl := Option.some.inj (hx.symm.trans hy)
    exact h.live
  have hc := step_change hstep
  refine ⟨hex.change hc hproper, Nat.lt_of_lt_of_le h.lt hc.files_le, ?_⟩
  obtain ⟨y, hy, hq⟩ := Option.map_eq_some_iff.mp hstep
  obtain rfl := Option.some.inj (hx.symm.trans hy)
  obtain ⟨s, hs, -⟩ := Socket.close_of_nonneg p.toWorld hfd
  rw [hs] at hq
  rintro ⟨d, hd⟩
  rw [← hq] at hd
  obtain ⟨hne, hd⟩ := World.owner_released.mp hd
  have hat := hex.at_owner (List.mem_of_getElem? hx) hd
  omega

/-- A turn that takes a connection closes it. -/
theorem Server.turn_closes {listener fd : ℕ} {handler : List Action} (hex : p.Exact)
    (hhandler : ∀ r, p.run (taken p listener fd) = some r → Handles p.files r handler)
    (hturn : Server.turn p listener (some fd) handler = some q) :
    q.Exact ∧ p.files < q.files ∧ ¬q.IsOpen p.files := by
  rw [Server.turn, run_append, run_append] at hturn
  obtain ⟨m, hm, hclose⟩ := Option.bind_eq_some_iff.mp hturn
  obtain ⟨r, hr, hm⟩ := Option.bind_eq_some_iff.mp hm
  obtain ⟨m₁, haccept, hcopies⟩ := Option.bind_eq_some_iff.mp hr
  obtain ⟨hserving, hex₁⟩ := (serving_accept hex haccept).run
    (hex.change (step_change haccept) trivial) (handles_copies _ _ _) hcopies
  obtain ⟨hserving, hex₂⟩ := hserving.run hex₁ (hhandler r hr) hm
  obtain ⟨m₂, hstep, hq⟩ := Option.bind_eq_some_iff.mp hclose
  exact Option.some.inj hq ▸ hserving.close hex₂ hstep

theorem Server.turn_keeps {listener : ℕ} {client : Option ℕ} {handler : List Action} {f : ℕ}
    (hturn : Server.turn p listener client handler = some q) (hlt : f < p.files) :
    f < q.files ∧ (q.IsOpen f → p.IsOpen f) := by
  cases client with
  | none => exact ⟨Nat.lt_of_lt_of_le hlt (run_files_le hturn), run_isOpen_of_lt hturn hlt⟩
  | some fd => exact ⟨Nat.lt_of_lt_of_le hlt (run_files_le hturn), run_isOpen_of_lt hturn hlt⟩

theorem Server.Listens.closed {listener : ℕ} {ns : List ℕ} (hex : p.Exact)
    (h : Server.Listens listener p ns q) :
    q.Exact ∧ ∀ n ∈ ns, n < q.files ∧ ¬q.IsOpen n := by
  induction h with
  | start => exact ⟨hex, fun n hn => by cases hn⟩
  | @skipped ns m q _ hturn ih =>
    obtain ⟨hexm, hns⟩ := ih
    have hproper : m.ProperRun [.accept listener none] := ⟨trivial, fun _ _ => trivial⟩
    refine ⟨hexm.run hproper hturn, fun n hn => ?_⟩
    have hkeeps := Server.turn_keeps hturn (hns n hn).1
    exact ⟨hkeeps.1, fun hopen => (hns n hn).2 (hkeeps.2 hopen)⟩
  | @served ns m q fd handler _ hhandler hturn ih =>
    obtain ⟨hexm, hns⟩ := ih
    obtain ⟨hexq, hclosed⟩ := Server.turn_closes hexm hhandler hturn
    refine ⟨hexq, fun n hn => ?_⟩
    obtain hn | hn := List.mem_append.mp hn
    · have hkeeps := Server.turn_keeps hturn (hns n hn).1
      exact ⟨hkeeps.1, fun hopen => (hns n hn).2 (hkeeps.2 hopen)⟩
    · obtain rfl := List.mem_singleton.mp hn
      exact hclosed

/-- However many connections a server has taken, all of them are closed, and what is open is still
what the program has not closed, and what failed calls have left. -/
theorem Server.listen_closes {as : List Action} {listener : ℕ} {ns : List ℕ}
    (hproper : init.ProperRun as) (hrun : init.run as = some p)
    (h : Server.Listens listener p ns q) :
    (∀ n ∈ ns, ¬q.IsOpen n) ∧
      ∀ f, q.IsOpen f ↔ f ∈ q.others ∨ f ∈ q.failed ∨ ∃ x ∈ q.vars, x.file = f ∧ q.Live x := by
  obtain ⟨hex, hns⟩ := h.closed (exact_init.run hproper hrun)
  exact ⟨fun n hn => (hns n hn).2, hex.isOpen_iff⟩

def boundListener : List Action := [.bind 80 ⟨some 3, true, 0, 0⟩, .copy 0]

def boundProcess : Process := (init.run boundListener).get rfl

def turnedProcess : Process := (Server.turn boundProcess 1 (some 4) [.openOther 5]).get rfl

theorem Server.listen_closes_turnedProcess : ¬turnedProcess.IsOpen 1 := by
  have hproper : init.ProperRun boundListener :=
    ⟨trivial, fun _ _ => ⟨trivial, fun _ _ => trivial⟩⟩
  have hhandles : ∀ r, Handles 1 r [.openOther 5] := fun r =>
    ⟨⟨trivial, fun _ _ h => by cases h⟩, fun _ _ => trivial⟩
  have hlistens : Server.Listens 1 boundProcess [1] turnedProcess :=
    .served 4 [.openOther 5] .start (fun r _ => hhandles r) rfl
  have hrun : init.run boundListener = some boundProcess := rfl
  exact (Server.listen_closes hproper hrun hlistens).1 1 (List.mem_singleton_self 1)

end Http

end TurfLang
