import TurfLang.Frontend.Run

/-!
# Jumps and deferred statements in their places

A `break` or `continue` stands in a loop; a `defer` is a statement of a block; and what it defers
comes to its own end: no `return` or `try` in it, and no `break` or `continue` that is meant for a
loop around it. The runs of such a tree end only in the ways that its jumps allow, and each of
them leaves no deferred statement behind.
-/

namespace TurfLang.Ast

open Behaviour

mutual

/-- Whether every jump is meant for something inside the tree, or for what is allowed outside, and
every `defer` is a statement of a block and keeps control. -/
def Expr.placed (ret loop : Bool) : Expr → Bool
  | .bool _ | .name _ _ => true
  | .node _ children => placedAll ret loop children
  | .logical _ lhs rhs => lhs.placed ret loop && rhs.placed ret loop
  | .varDecl _ _ inits => placedAll ret loop inits
  | .recoverProduce wrapped produce => wrapped.placed ret loop && produce.placed ret loop
  | .recoverRun wrapped _ block => wrapped.placed ret loop && block.placed ret loop
  | .tryExpr operand => ret && operand.placed ret loop
  | .block exprs => placedItems ret loop exprs
  | .unsafeBlock body => body.placed ret loop
  | .ifElse branches => branches.placed ret loop
  | .whileLoop cond body => cond.placed ret loop && body.placed ret true
  | .doWhile body cond => body.placed ret true && cond.placed ret loop
  | .forRange _ _ start stop step body =>
    start.placed ret loop && stop.placed ret loop && step.placed ret loop && body.placed ret true
  | .forEach _ iterable body => iterable.placed ret loop && body.placed ret true
  | .compare subject arms => subject.placed ret loop && arms.placed ret loop
  | .returnVoid => ret
  | .returnVal val => ret && val.placed ret loop
  | .breakLoop | .continueLoop => loop
  | .defer _ => false

def Branches.placed (ret loop : Bool) : Branches → Bool
  | .noElse => true
  | .elseBody body => body.placed ret loop
  | .branch cond body rest =>
    cond.placed ret loop && body.placed ret loop && rest.placed ret loop

def Arms.placed (ret loop : Bool) : Arms → Bool
  | .noOtherBody _ => true
  | .otherBody body => body.placed ret loop
  | .arm _ headers body rest =>
    headers.placed ret loop && body.placed ret loop && rest.placed ret loop

def Headers.placed (ret loop : Bool) : Headers → Bool
  | .nil => true
  | .header val rest => val.placed ret loop && rest.placed ret loop
  | .guarded val guard rest =>
    val.placed ret loop && guard.placed ret loop && rest.placed ret loop

def placedAll (ret loop : Bool) : List Expr → Bool
  | [] => true
  | e :: es => e.placed ret loop && placedAll ret loop es

def placedItems (ret loop : Bool) : List Expr → Bool
  | [] => true
  | .defer stmt :: es => stmt.placed false false && placedItems ret loop es
  | e :: es => e.placed ret loop && placedItems ret loop es

end

/-! ### The ways a tree ends -/

/-- The ends that the jumps of a tree allow. -/
def Allowed (ret loop : Bool) : Outcome → Prop
  | .normal | .halts => True
  | .returns | .fails => ret = true
  | .breaks | .continues => loop = true

theorem Allowed.settles {o : Outcome} (h : Allowed false false o) : o = .normal ∨ o = .halts := by
  cases o <;> simp_all [Allowed]

theorem Allowed.of_loop {ret loop : Bool} {o : Outcome} (h : Allowed ret true o) :
    Allowed ret loop o ∨ o = .breaks ∨ o = .continues := by
  cases o <;> simp_all [Allowed]

section

variable {ret loop : Bool}

theorem within_mark (m : Mode) (e : Event) : Within (Allowed ret loop) (m.mark e) := by
  cases m with
  | statement => exact within_event trivial
  | _ => exact within_skip trivial

theorem within_note (m : Mode) (e : Event) : Within (Allowed ret loop) (m.note e) := by
  cases m with
  | bare => exact within_skip trivial
  | _ => exact within_event trivial

theorem within_regular {m : Mode} {e : Expr} {a : Behaviour Event}
    (h : Within (Allowed ret loop) a) : Within (Allowed ret loop) (regular m e a) :=
  within_seq h (within_mark m _)

theorem within_deferred {m : Mode} {d : Expr} (h : Within (Allowed false false) (d.run m.deferred)) :
    Within (fun o => o = .normal ∨ o = .halts)
      (seq (d.run m.deferred) (seq (m.note (.finished d)) (m.mark (.deferred d)))) :=
  (within_seq h (within_seq (within_note m _) (within_mark m _))).mono fun _ => Allowed.settles

end

mutual

theorem Expr.run_within {ret loop : Bool} {m : Mode} : ∀ {e : Expr}, e.placed ret loop = true →
    Within (Allowed ret loop) (e.run m)
  | .bool _, _ => within_regular (within_op trivial trivial)
  | .name _ _, _ => within_regular (within_op trivial trivial)
  | .node _ children, h =>
    within_regular (within_seq (runAll_within (l := children) h) (within_op trivial trivial))
  | .logical _ lhs rhs, h => by
    simp only [Expr.placed, Bool.and_eq_true] at h
    exact within_regular (within_seq (Expr.run_within h.1) (within_choice
      (within_given (within_skip trivial)) (within_given (Expr.run_within h.2))))
  | .varDecl _ _ inits, h =>
    within_regular (within_seq (runAll_within (l := inits) h) (within_op trivial trivial))
  | .recoverProduce wrapped produce, h => by
    simp only [Expr.placed, Bool.and_eq_true] at h
    exact within_regular (within_seq (Expr.run_within h.1)
      (within_choice (within_skip trivial) (Expr.run_within h.2)))
  | .recoverRun wrapped _ block, h => by
    simp only [Expr.placed, Bool.and_eq_true] at h
    exact within_regular (within_seq (Expr.run_within h.1)
      (within_choice (within_skip trivial) (Expr.run_within h.2)))
  | .tryExpr operand, h => by
    simp only [Expr.placed, Bool.and_eq_true] at h
    exact within_regular (within_seq (Expr.run_within h.2)
      (within_choice (within_skip trivial) (within_jump h.1)))
  | .block exprs, h => runItems_within (l := exprs) h
  | .unsafeBlock body, h => Expr.run_within (e := body) h
  | .ifElse branches, h => Branches.run_within (b := branches) h
  | .whileLoop cond body, h => by
    simp only [Expr.placed, Bool.and_eq_true] at h
    exact within_loop trivial (within_seq (Expr.run_within h.1) (within_mark m _))
      ((Expr.run_within h.2).mono fun _ => Allowed.of_loop) (within_skip trivial)
  | .doWhile body cond, h => by
    simp only [Expr.placed, Bool.and_eq_true] at h
    exact within_loop trivial (within_skip trivial)
      ((Expr.run_within h.1).mono fun _ => Allowed.of_loop)
      (within_seq (Expr.run_within h.2) (within_mark m _))
  | .forRange _ _ start stop step body, h => by
    simp only [Expr.placed, Bool.and_eq_true] at h
    exact within_seq (Expr.run_within h.1.1.1) (within_seq (Expr.run_within h.1.1.2)
      (within_loop trivial (within_seq (within_mark m _) (within_mark m _))
        ((Expr.run_within h.2).mono fun _ => Allowed.of_loop) (Expr.run_within h.1.2)))
  | .forEach _ iterable body, h => by
    simp only [Expr.placed, Bool.and_eq_true] at h
    exact within_seq (Expr.run_within h.1) (within_loop trivial (within_mark m _)
      (within_seq (within_choice (within_skip (.inl trivial)) (within_jump (.inl trivial)))
        ((Expr.run_within h.2).mono fun _ => Allowed.of_loop)) (within_skip trivial))
  | .compare subject arms, h => by
    simp only [Expr.placed, Bool.and_eq_true] at h
    exact within_seq (Expr.run_within h.1) (within_seq (within_mark m _) (Arms.run_within h.2))
  | .returnVoid, h =>
    within_seq (within_regular (within_skip trivial)) (within_jump h)
  | .returnVal val, h => by
    simp only [Expr.placed, Bool.and_eq_true] at h
    exact within_seq (within_regular (Expr.run_within h.2)) (within_jump h.1)
  | .breakLoop, h => within_jump h
  | .continueLoop, h => within_jump h
  | .defer _, h => by simp [Expr.placed] at h

theorem Branches.run_within {ret loop : Bool} {m : Mode} : ∀ {b : Branches},
    b.placed ret loop = true → Within (Allowed ret loop) (b.run m)
  | .noElse, _ => within_skip trivial
  | .elseBody body, h => Expr.run_within (e := body) h
  | .branch cond body rest, h => by
    simp only [Branches.placed, Bool.and_eq_true] at h
    exact within_seq (Expr.run_within h.1.1) (within_seq (within_mark m _) (within_choice
      (within_given (Expr.run_within h.1.2)) (within_given (Branches.run_within h.2))))

theorem Arms.run_within {ret loop : Bool} {m : Mode} : ∀ {a : Arms}, a.placed ret loop = true →
    Within (Allowed ret loop) (a.run m)
  | .noOtherBody _, _ => within_given (within_skip trivial)
  | .otherBody body, h => Expr.run_within (e := body) h
  | .arm _ headers body rest, h => by
    simp only [Arms.placed, Bool.and_eq_true] at h
    exact Headers.run_within h.1.1 (Expr.run_within h.1.2) (Arms.run_within h.2)

theorem Headers.run_within {ret loop : Bool} {m : Mode} {body rest : Behaviour Event} :
    ∀ {hs : Headers}, hs.placed ret loop = true → Within (Allowed ret loop) body →
      Within (Allowed ret loop) rest → Within (Allowed ret loop) (hs.run m body rest)
  | .nil, _, _, hrest => hrest
  | .header val more, h, hbody, hrest => by
    simp only [Headers.placed, Bool.and_eq_true] at h
    exact within_seq (Expr.run_within h.1) (within_seq (within_mark m _)
      (within_choice hbody (Headers.run_within h.2 hbody hrest)))
  | .guarded val guard more, h, hbody, hrest => by
    simp only [Headers.placed, Bool.and_eq_true] at h
    have hmore := Headers.run_within (m := m) h.2 hbody hrest
    exact within_seq (Expr.run_within h.1.1) (within_seq (within_mark m _) (within_choice
      (within_seq (within_mark m _) hmore) (within_seq (Expr.run_within h.1.2)
        (within_seq (within_mark m _) (within_choice (within_given hbody) (within_given hmore))))))

theorem runAll_within {ret loop : Bool} {m : Mode} : ∀ {l : List Expr},
    placedAll ret loop l = true → Within (Allowed ret loop) (runAll l m)
  | [], _ => within_skip trivial
  | e :: es, h => by
    simp only [placedAll, Bool.and_eq_true] at h
    exact within_seq (Expr.run_within h.1) (runAll_within h.2)

theorem runItems_within {ret loop : Bool} {m : Mode} : ∀ {l : List Expr},
    placedItems ret loop l = true → Within (Allowed ret loop) (runItems l m)
  | [], _ => within_skip trivial
  | e :: es, h => by
    cases e with
    | defer stmt =>
      simp only [placedItems, Bool.and_eq_true] at h
      exact within_seq (within_note m _) (within_seq (within_mark m _)
        (within_cleanup (runItems_within h.2) (within_deferred (Expr.run_within h.1)) trivial))
    | _ =>
      simp only [placedItems, Bool.and_eq_true] at h
      exact within_seq (Expr.run_within h.1) (runItems_within h.2)

end

end TurfLang.Ast
