import TurfLang.Frontend.Placed

/-!
# Runs with and without the graph

What only the graph shows can be left out of a run: then a tree runs as one of which the graph has
no part. And what the graph shows of deferred statements is in order: in every run of a tree,
however it ends, the deferred statements that were reached have run, each once and the last of them
first.
-/

namespace TurfLang.Ast

open Behaviour

/-! ### The evaluations alone -/

/-- Whether an event is the evaluation of a node. -/
def Event.isEval : Event → Bool
  | .eval _ => true
  | _ => false

@[simp] theorem Mode.inner_bare : Mode.bare.inner = .bare := rfl

@[simp] theorem Mode.header_bare : Mode.bare.header = .bare := rfl

@[simp] theorem Mode.runBlock_bare : Mode.bare.runBlock = .bare := rfl

@[simp] theorem Mode.deferred_bare : Mode.bare.deferred = .bare := rfl

@[simp] theorem Mode.mark_bare (e : Event) : Mode.bare.mark e = skip := rfl

@[simp] theorem Mode.note_bare (e : Event) : Mode.bare.note e = skip := rfl

theorem only_mark {m : Mode} {e : Event} (h : e.isEval = false) :
    only Event.isEval (m.mark e) = skip := by
  cases m with
  | statement => exact only_event_of_false h
  | _ => exact only_skip

theorem only_note {m : Mode} {e : Event} (h : e.isEval = false) :
    only Event.isEval (m.note e) = skip := by
  cases m with
  | bare => exact only_skip
  | _ => exact only_event_of_false h

theorem only_reached (m : Mode) (e : Expr) : only Event.isEval (m.note (.reached e)) = skip :=
  only_note rfl

theorem only_finished (m : Mode) (e : Expr) : only Event.isEval (m.note (.finished e)) = skip :=
  only_note rfl

theorem only_ran (m : Mode) (e : Expr) : only Event.isEval (m.mark (.ran e)) = skip :=
  only_mark rfl

theorem only_passed (m : Mode) (e : Expr) : only Event.isEval (m.mark (.passed e)) = skip :=
  only_mark rfl

theorem only_deferred (m : Mode) (e : Expr) : only Event.isEval (m.mark (.deferred e)) = skip :=
  only_mark rfl

theorem only_regular (m : Mode) (e : Expr) (a : Behaviour Event) :
    only Event.isEval (regular m e a) = only Event.isEval a := by
  rw [regular, only_seq, only_mark rfl, seq_skip]

theorem regular_bare (e : Expr) (a : Behaviour Event) : regular .bare e a = a :=
  seq_skip a

mutual

/-- What a tree evaluates does not depend on where it stands. -/
theorem Expr.only_run (m : Mode) : ∀ e : Expr, only Event.isEval (e.run m) = e.run .bare
  | .bool val | .name x s => by
    simp only [Expr.run, only_regular, regular_bare]
    exact only_op rfl
  | .node kind children => by
    simp only [Expr.run, only_regular, regular_bare, only_seq, runAll_only, Mode.inner_bare]
    rw [only_op rfl]
  | .logical isAnd lhs rhs => by
    simp only [Expr.run, only_regular, regular_bare, only_seq, only_choice, only_given, only_skip,
      Expr.only_run _ lhs, Expr.only_run _ rhs, Mode.inner_bare]
  | .varDecl x s inits => by
    simp only [Expr.run, only_regular, regular_bare, only_seq, runAll_only, Mode.inner_bare]
    rw [only_op rfl]
  | .recoverProduce wrapped produce => by
    simp only [Expr.run, only_regular, regular_bare, only_seq, only_choice, only_skip,
      Expr.only_run _ wrapped, Expr.only_run _ produce, Mode.inner_bare]
  | .recoverRun wrapped bound block => by
    simp only [Expr.run, only_regular, regular_bare, only_seq, only_choice, only_skip,
      Expr.only_run _ wrapped, Expr.only_run _ block, Mode.inner_bare, Mode.runBlock_bare]
  | .tryExpr operand => by
    simp only [Expr.run, only_regular, regular_bare, only_seq, only_choice, only_skip, only_jump,
      Expr.only_run _ operand, Mode.inner_bare]
  | .block exprs => runItems_only m exprs
  | .unsafeBlock body => Expr.only_run m body
  | .ifElse branches => Branches.only_run m branches
  | .whileLoop cond body => by
    simp only [Expr.run, only_loop, Parts.only, whileParts, only_seq, only_ran,
      only_skip, Expr.only_run _ cond, Expr.only_run _ body, Mode.header_bare, Mode.mark_bare]
  | .doWhile body cond => by
    simp only [Expr.run, only_loop, Parts.only, doWhileParts, only_seq, only_ran,
      only_skip, Expr.only_run _ cond, Expr.only_run _ body, Mode.header_bare, Mode.mark_bare]
  | .forRange _ _ start stop step body => by
    simp only [Expr.run, only_loop, Parts.only, forParts, only_seq, only_passed,
      Expr.only_run _ start, Expr.only_run _ stop, Expr.only_run _ step,
      Expr.only_run _ body, Mode.header_bare, Mode.mark_bare]
  | .forEach _ iterable body => by
    simp only [Expr.run, only_loop, Parts.only, forParts, only_seq, only_choice, only_passed,
      only_skip, only_jump, Expr.only_run _ iterable, Expr.only_run _ body,
      Mode.header_bare, Mode.mark_bare]
  | .compare subject arms => by
    simp only [Expr.run, only_seq, only_ran, Expr.only_run _ subject,
      Arms.only_run m arms, Mode.header_bare, Mode.mark_bare]
  | .returnVoid => by
    simp only [Expr.run, only_seq, only_regular, regular_bare, only_skip, only_jump]
  | .returnVal val => by
    simp only [Expr.run, only_seq, only_regular, regular_bare, only_jump, Expr.only_run _ val,
      Mode.inner_bare]
  | .breakLoop => only_jump _
  | .continueLoop => only_jump _
  | .defer _ => only_mark rfl

theorem Branches.only_run (m : Mode) : ∀ b : Branches,
    only Event.isEval (b.run m) = b.run .bare
  | .noElse => only_skip
  | .elseBody body => Expr.only_run m body
  | .branch cond body rest => by
    simp only [Branches.run, only_seq, only_choice, only_given, only_ran,
      Expr.only_run _ cond, Expr.only_run _ body, Branches.only_run m rest, Mode.header_bare,
      Mode.mark_bare]

theorem Arms.only_run (m : Mode) : ∀ a : Arms, only Event.isEval (a.run m) = a.run .bare
  | .noOtherBody exhaustive => by simp only [Arms.run, only_given, only_skip]
  | .otherBody body => Expr.only_run m body
  | .arm _ headers body rest => by
    simp only [Arms.run, Headers.only_run m headers, Expr.only_run m body, Arms.only_run m rest]

theorem Headers.only_run (m : Mode) : ∀ (hs : Headers) (body rest : Behaviour Event),
    only Event.isEval (hs.run m body rest) =
      hs.run .bare (only Event.isEval body) (only Event.isEval rest)
  | .nil, _, _ => rfl
  | .header val more, body, rest => by
    simp only [Headers.run, only_seq, only_choice, only_ran, Expr.only_run _ val,
      Headers.only_run m more, Mode.header_bare, Mode.mark_bare]
  | .guarded val guard more, body, rest => by
    simp only [Headers.run, only_seq, only_choice, only_given, only_ran, only_passed,
      Expr.only_run _ val, Expr.only_run _ guard, Headers.only_run m more, Mode.header_bare,
      Mode.mark_bare]

theorem runAll_only (m : Mode) : ∀ l : List Expr,
    only Event.isEval (runAll l m) = runAll l .bare
  | [] => only_skip
  | e :: es => by simp only [runAll, only_seq, Expr.only_run m e, runAll_only m es]

theorem runItems_only (m : Mode) : ∀ l : List Expr,
    only Event.isEval (runItems l m) = runItems l .bare
  | [] => only_skip
  | e :: es => by
    cases e with
    | defer stmt =>
      simp only [runItems, only_seq, only_cleanup, only_reached, only_finished, only_ran,
        only_deferred, Expr.only_run _ stmt, runItems_only m es, Mode.mark_bare, Mode.note_bare,
        Mode.deferred_bare]
    | _ => simp only [runItems, only_seq, Expr.only_run, runItems_only m es]

end

/-! ### Deferred statements are finished in order -/

/-- What becomes of the statements that wait to be run, last first. A `defer` that is reached adds
one, and only the first of them can be finished. -/
inductive Settled : List Expr → List Event → List Expr → Prop
  | nil (waiting : List Expr) : Settled waiting [] waiting
  | reached {d : Expr} {waiting left : List Expr} {t : List Event} :
      Settled (d :: waiting) t left → Settled waiting (.reached d :: t) left
  | finished {d : Expr} {waiting left : List Expr} {t : List Event} :
      Settled waiting t left → Settled (d :: waiting) (.finished d :: t) left
  | other {e : Event} {waiting left : List Expr} {t : List Event} : (∀ d, e ≠ .reached d) →
      (∀ d, e ≠ .finished d) → Settled waiting t left → Settled waiting (e :: t) left

theorem Settled.append {t₁ t₂ : List Event} {waiting left rest : List Expr}
    (h₁ : Settled waiting t₁ left) (h₂ : Settled left t₂ rest) : Settled waiting (t₁ ++ t₂) rest := by
  induction h₁ with
  | nil => exact h₂
  | reached _ ih => exact .reached (ih h₂)
  | finished _ ih => exact .finished (ih h₂)
  | other hr hf _ ih => exact .other hr hf (ih h₂)

/-- Whatever waited before still waits, and if the program was not cut off nothing else does. -/
def Tidy (a : Behaviour Event) : Prop :=
  ∀ t o, a t o → ∀ waiting, ∃ left, Settled waiting t (left ++ waiting) ∧ (o ≠ .halts → left = [])

theorem Mode.inner_ne {m : Mode} (h : m ≠ .bare) : m.inner ≠ .bare := by
  cases m <;> first | exact h | nofun

theorem Mode.header_ne {m : Mode} (h : m ≠ .bare) : m.header ≠ .bare := by
  cases m <;> first | exact h | nofun

theorem Mode.runBlock_ne {m : Mode} (h : m ≠ .bare) : m.runBlock ≠ .bare := by
  cases m <;> first | exact h | nofun

theorem Mode.deferred_ne {m : Mode} (h : m ≠ .bare) : m.deferred ≠ .bare := by
  cases m <;> first | exact h | nofun

section

variable {a b : Behaviour Event}

theorem Tidy.settled (h : Tidy a) {t : List Event} {o : Outcome} (ht : a t o) (ho : o ≠ .halts)
    (waiting : List Expr) : Settled waiting t waiting := by
  obtain ⟨left, hsettled, hleft⟩ := h t o ht waiting
  simpa [hleft ho] using hsettled

theorem tidy_jump (o : Outcome) : Tidy (jump o) := by
  rintro _ _ ⟨rfl, -⟩ waiting
  exact ⟨[], .nil _, fun _ => rfl⟩

theorem tidy_event {e : Event} (hr : ∀ d, e ≠ .reached d) (hf : ∀ d, e ≠ .finished d) :
    Tidy (event e) := by
  rintro _ _ ⟨rfl, -⟩ waiting
  exact ⟨[], .other hr hf (.nil _), fun _ => rfl⟩

theorem tidy_op (e : Expr) : Tidy (op (.eval e)) := by
  rintro _ _ (⟨rfl, -⟩ | ⟨rfl, -⟩) waiting
  · exact ⟨[], .other nofun nofun (.nil _), fun _ => rfl⟩
  · exact ⟨[], .nil _, fun _ => rfl⟩

theorem tidy_mark (m : Mode) {e : Event} (hr : ∀ d, e ≠ .reached d) (hf : ∀ d, e ≠ .finished d) :
    Tidy (m.mark e) := by
  cases m with
  | statement => exact tidy_event hr hf
  | _ => exact tidy_jump _

theorem tidy_ran (m : Mode) (e : Expr) : Tidy (m.mark (.ran e)) := tidy_mark m nofun nofun

theorem tidy_passed (m : Mode) (e : Expr) : Tidy (m.mark (.passed e)) := tidy_mark m nofun nofun

theorem tidy_seq (ha : Tidy a) (hb : Tidy b) : Tidy (seq a b) := by
  rintro _ o (⟨h, -⟩ | ⟨t₁, t₂, h₁, h₂, rfl⟩) waiting
  · exact ha _ _ h waiting
  · obtain ⟨left, hsettled, hleft⟩ := hb _ _ h₂ waiting
    exact ⟨left, (ha.settled h₁ nofun waiting).append hsettled, hleft⟩

theorem tidy_choice (ha : Tidy a) (hb : Tidy b) : Tidy (choice a b) := by
  rintro t o (h | h)
  · exact ha t o h
  · exact hb t o h

theorem tidy_given {p : Prop} (ha : Tidy a) : Tidy (given p a) := fun t o h => ha t o h.2

theorem tidy_loop {P : Parts Event} (ht : Tidy P.test) (hb : Tidy P.body) (hs : Tidy P.step) :
    Tidy (Loop P) := by
  intro t o h waiting
  have hround : ∀ {o : Outcome}, o = .normal ∨ o = .continues → o ≠ .halts := by
    rintro _ (rfl | rfl) <;> nofun
  induction h with
  | leave _ htest => exact ht _ _ htest waiting
  | testEnds htest => exact ht _ _ htest waiting
  | breaks _ htest hbody =>
    exact ⟨[], (ht.settled htest nofun _).append (hb.settled hbody nofun _), fun _ => rfl⟩
  | bodyEnds _ htest hbody =>
    obtain ⟨left, hsettled, hleft⟩ := hb _ _ hbody waiting
    exact ⟨left, (ht.settled htest nofun _).append hsettled, hleft⟩
  | stepEnds _ htest hbody ho hstep =>
    obtain ⟨left, hsettled, hleft⟩ := hs _ _ hstep waiting
    exact ⟨left, ((ht.settled htest nofun _).append (hb.settled hbody (hround ho) _)).append hsettled,
      hleft⟩
  | stop _ htest hbody ho hstep =>
    exact ⟨[], ((ht.settled htest nofun _).append (hb.settled hbody (hround ho) _)).append
      (hs.settled hstep nofun _), fun _ => rfl⟩
  | next _ htest hbody ho hstep _ _ ih =>
    obtain ⟨left, hsettled, hleft⟩ := ih
    exact ⟨left, (((ht.settled htest nofun _).append (hb.settled hbody (hround ho) _)).append
      (hs.settled hstep nofun _)).append hsettled, hleft⟩

/-- A statement that is deferred to the end of another. -/
theorem tidy_deferred {d : Expr} {m : Mode} (hm : m ≠ .bare) (ha : Tidy a) (hb : Tidy b)
    (hends : Within (fun o => o = .normal ∨ o = .halts) b) :
    Tidy (seq (m.note (.reached d)) (seq (m.mark (.ran (.defer d)))
      (cleanup a (seq b (seq (m.note (.finished d)) (m.mark (.deferred d))))))) := by
  have hnote : ∀ e, m.note e = event e := fun e => by cases m <;> first | rfl | contradiction
  have htail : Tidy (m.mark (.deferred d)) := tidy_mark m nofun nofun
  -- Once the `defer` is reached, its statement waits in front of the others.
  have hrest : ∀ t o, cleanup a (seq b (seq (m.note (.finished d)) (m.mark (.deferred d)))) t o →
      ∀ waiting, ∃ left, Settled (d :: waiting) t (left ++ waiting) ∧ (o ≠ .halts → left = []) := by
    rintro _ _ ⟨t₁, o₁, t₂, o₂, h₁, hexit, rfl, rfl⟩ waiting
    by_cases ho₁ : o₁ = .halts
    · subst ho₁
      obtain ⟨rfl, rfl⟩ := hexit
      obtain ⟨left, hsettled, -⟩ := ha _ _ h₁ (d :: waiting)
      exact ⟨left ++ [d], by simpa using hsettled, by simp⟩
    have hexit' : seq b (seq (m.note (.finished d)) (m.mark (.deferred d))) t₂ o₂ := by
      cases o₁ <;> first | exact hexit | contradiction
    have hbody := ha.settled h₁ ho₁ (d :: waiting)
    rw [hnote] at hexit'
    obtain ⟨h₂, hne⟩ | ⟨t₂, _, h₂, ⟨⟨rfl, rfl⟩, hne⟩ | ⟨_, t₃, ⟨rfl, -⟩, h₃, rfl⟩, rfl⟩ := hexit'
    · obtain rfl := (hends _ _ h₂).resolve_left hne
      obtain ⟨left, hsettled, -⟩ := hb _ _ h₂ (d :: waiting)
      exact ⟨left ++ [d], by simpa using hbody.append hsettled, by simp⟩
    · exact absurd rfl hne
    · obtain ⟨left, hsettled, hleft⟩ := htail _ _ h₃ waiting
      refine ⟨left, hbody.append ((hb.settled h₂ nofun _).append (.finished hsettled)), fun h => ?_⟩
      exact hleft fun h' => h (by simp [h'])
  rw [hnote]
  rintro _ o (⟨⟨-, rfl⟩, hne⟩ | ⟨_, _, ⟨rfl, -⟩, h', rfl⟩) waiting
  · exact absurd rfl hne
  obtain ⟨h, hne⟩ | ⟨_, _, h, h', rfl⟩ := h'
  · cases m <;> exact absurd h.2 hne
  obtain ⟨left, hsettled, hleft⟩ := hrest _ _ h' waiting
  exact ⟨left, .reached (((tidy_ran m _).settled h nofun _).append hsettled), hleft⟩

end

mutual

/-- However a tree ends, no deferred statement of it is left, and those that waited before still
wait. -/
theorem Expr.tidy_run {ret loop : Bool} {m : Mode} (hm : m ≠ .bare) :
    ∀ {e : Expr}, e.placed ret loop = true → Tidy (e.run m)
  | .bool _, _ => tidy_seq (tidy_op _) (tidy_ran m _)
  | .name _ _, _ => tidy_seq (tidy_op _) (tidy_ran m _)
  | .node _ children, h =>
    tidy_seq (tidy_seq (runAll_tidy (Mode.inner_ne hm) (l := children) h) (tidy_op _)) (tidy_ran m _)
  | .logical _ lhs rhs, h => by
    simp only [Expr.placed, Bool.and_eq_true] at h
    exact tidy_seq (tidy_seq (Expr.tidy_run (Mode.inner_ne hm) h.1) (tidy_choice
      (tidy_given (tidy_jump _)) (tidy_given (Expr.tidy_run (Mode.inner_ne hm) h.2)))) (tidy_ran m _)
  | .varDecl _ _ inits, h =>
    tidy_seq (tidy_seq (runAll_tidy (Mode.inner_ne hm) (l := inits) h) (tidy_op _)) (tidy_ran m _)
  | .recoverProduce wrapped produce, h => by
    simp only [Expr.placed, Bool.and_eq_true] at h
    exact tidy_seq (tidy_seq (Expr.tidy_run (Mode.inner_ne hm) h.1)
      (tidy_choice (tidy_jump _) (Expr.tidy_run (Mode.inner_ne hm) h.2))) (tidy_ran m _)
  | .recoverRun wrapped _ block, h => by
    simp only [Expr.placed, Bool.and_eq_true] at h
    exact tidy_seq (tidy_seq (Expr.tidy_run (Mode.inner_ne hm) h.1) (tidy_choice (tidy_jump _)
      (Expr.tidy_run (Mode.runBlock_ne (Mode.inner_ne hm)) h.2))) (tidy_ran m _)
  | .tryExpr operand, h => by
    simp only [Expr.placed, Bool.and_eq_true] at h
    exact tidy_seq (tidy_seq (Expr.tidy_run (Mode.inner_ne hm) h.2)
      (tidy_choice (tidy_jump _) (tidy_jump _))) (tidy_ran m _)
  | .block exprs, h => runItems_tidy hm (l := exprs) h
  | .unsafeBlock body, h => Expr.tidy_run hm (e := body) h
  | .ifElse branches, h => Branches.tidy_run hm (b := branches) h
  | .whileLoop cond body, h => by
    simp only [Expr.placed, Bool.and_eq_true] at h
    exact tidy_loop (tidy_seq (Expr.tidy_run (Mode.header_ne hm) h.1) (tidy_ran m _))
      (Expr.tidy_run hm h.2) (tidy_jump _)
  | .doWhile body cond, h => by
    simp only [Expr.placed, Bool.and_eq_true] at h
    exact tidy_loop (tidy_jump _) (Expr.tidy_run hm h.1)
      (tidy_seq (Expr.tidy_run (Mode.header_ne hm) h.2) (tidy_ran m _))
  | .forRange _ _ start stop step body, h => by
    simp only [Expr.placed, Bool.and_eq_true] at h
    exact tidy_seq (Expr.tidy_run (Mode.header_ne hm) h.1.1.1)
      (tidy_seq (Expr.tidy_run (Mode.header_ne hm) h.1.1.2)
        (tidy_loop (tidy_seq (tidy_passed m _) (tidy_passed m _)) (Expr.tidy_run hm h.2)
          (Expr.tidy_run (Mode.header_ne hm) h.1.2)))
  | .forEach _ iterable body, h => by
    simp only [Expr.placed, Bool.and_eq_true] at h
    exact tidy_seq (Expr.tidy_run (Mode.header_ne hm) h.1) (tidy_loop (tidy_passed m _)
      (tidy_seq (tidy_choice (tidy_jump _) (tidy_jump _)) (Expr.tidy_run hm h.2)) (tidy_jump _))
  | .compare subject arms, h => by
    simp only [Expr.placed, Bool.and_eq_true] at h
    exact tidy_seq (Expr.tidy_run (Mode.header_ne hm) h.1)
      (tidy_seq (tidy_ran m _) (Arms.tidy_run hm h.2))
  | .returnVoid, _ => tidy_seq (tidy_seq (tidy_jump _) (tidy_ran m _)) (tidy_jump _)
  | .returnVal val, h => by
    simp only [Expr.placed, Bool.and_eq_true] at h
    exact tidy_seq (tidy_seq (Expr.tidy_run (Mode.inner_ne hm) h.2) (tidy_ran m _)) (tidy_jump _)
  | .breakLoop, _ => tidy_jump _
  | .continueLoop, _ => tidy_jump _
  | .defer _, h => by simp [Expr.placed] at h

theorem Branches.tidy_run {ret loop : Bool} {m : Mode} (hm : m ≠ .bare) :
    ∀ {b : Branches}, b.placed ret loop = true → Tidy (b.run m)
  | .noElse, _ => tidy_jump _
  | .elseBody body, h => Expr.tidy_run hm (e := body) h
  | .branch cond body rest, h => by
    simp only [Branches.placed, Bool.and_eq_true] at h
    exact tidy_seq (Expr.tidy_run (Mode.header_ne hm) h.1.1) (tidy_seq (tidy_ran m _) (tidy_choice
      (tidy_given (Expr.tidy_run hm h.1.2)) (tidy_given (Branches.tidy_run hm h.2))))

theorem Arms.tidy_run {ret loop : Bool} {m : Mode} (hm : m ≠ .bare) :
    ∀ {a : Arms}, a.placed ret loop = true → Tidy (a.run m)
  | .noOtherBody _, _ => tidy_given (tidy_jump _)
  | .otherBody body, h => Expr.tidy_run hm (e := body) h
  | .arm _ headers body rest, h => by
    simp only [Arms.placed, Bool.and_eq_true] at h
    exact Headers.tidy_run hm h.1.1 (Expr.tidy_run hm h.1.2) (Arms.tidy_run hm h.2)

theorem Headers.tidy_run {ret loop : Bool} {m : Mode} (hm : m ≠ .bare)
    {body rest : Behaviour Event} : ∀ {hs : Headers}, hs.placed ret loop = true → Tidy body →
      Tidy rest → Tidy (hs.run m body rest)
  | .nil, _, _, hrest => hrest
  | .header val more, h, hbody, hrest => by
    simp only [Headers.placed, Bool.and_eq_true] at h
    exact tidy_seq (Expr.tidy_run (Mode.header_ne hm) h.1) (tidy_seq (tidy_ran m _)
      (tidy_choice hbody (Headers.tidy_run hm h.2 hbody hrest)))
  | .guarded val guard more, h, hbody, hrest => by
    simp only [Headers.placed, Bool.and_eq_true] at h
    have hmore := Headers.tidy_run hm h.2 hbody hrest
    exact tidy_seq (Expr.tidy_run (Mode.header_ne hm) h.1.1) (tidy_seq (tidy_ran m _) (tidy_choice
      (tidy_seq (tidy_passed m _) hmore) (tidy_seq (Expr.tidy_run (Mode.header_ne hm) h.1.2)
        (tidy_seq (tidy_ran m _) (tidy_choice (tidy_given hbody) (tidy_given hmore))))))

theorem runAll_tidy {ret loop : Bool} {m : Mode} (hm : m ≠ .bare) :
    ∀ {l : List Expr}, placedAll ret loop l = true → Tidy (runAll l m)
  | [], _ => tidy_jump _
  | e :: es, h => by
    simp only [placedAll, Bool.and_eq_true] at h
    exact tidy_seq (Expr.tidy_run hm h.1) (runAll_tidy hm h.2)

theorem runItems_tidy {ret loop : Bool} {m : Mode} (hm : m ≠ .bare) :
    ∀ {l : List Expr}, placedItems ret loop l = true → Tidy (runItems l m)
  | [], _ => tidy_jump _
  | e :: es, h => by
    cases e with
    | defer stmt =>
      simp only [placedItems, Bool.and_eq_true] at h
      exact tidy_deferred hm (runItems_tidy hm h.2) (Expr.tidy_run (Mode.deferred_ne hm) h.1)
        ((Expr.run_within h.1).mono fun _ => Allowed.settles)
    | _ =>
      simp only [placedItems, Bool.and_eq_true] at h
      exact tidy_seq (Expr.tidy_run hm h.1) (runItems_tidy hm h.2)

end

end TurfLang.Ast
