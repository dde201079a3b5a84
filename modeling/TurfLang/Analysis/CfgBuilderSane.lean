import TurfLang.Analysis.CfgBuilder
import TurfLang.Lib.FlowGraph

/-!
# What a visit leaves alone

A visit adds statements and edges to the block the builder stands at and to blocks that it creates
itself; the block it ends at goes nowhere yet. So the graph only grows, every edge is known at both
of its ends, and what was built before stays as it was.
-/

namespace TurfLang

open Ast

/-- A `break` or `continue`, which are statements of a block but nothing that a run shows. -/
def Ast.Expr.isJump : Expr → Bool
  | .breakLoop | .continueLoop => true
  | _ => false

/-- The entries that a run shows. -/
def visible (entries : List Entry) : List Entry := entries.filter fun entry => !entry.expr.isJump

/-- Statements that are recorded where they stand. -/
def statementEntries (stmts : List Expr) : List Entry := visible (stmts.map .statement)

/-- Deferred statements that are recorded where they run. -/
def deferredEntries (stmts : List Expr) : List Entry := visible (stmts.map .deferredRun)

@[simp] theorem visible_nil : visible [] = [] := rfl

@[simp] theorem visible_append (l₁ l₂ : List Entry) :
    visible (l₁ ++ l₂) = visible l₁ ++ visible l₂ := List.filter_append ..

section

variable {e : Expr} (h : e.isJump = false) (l l₁ l₂ : List Expr)

@[simp] theorem statementEntries_nil : statementEntries [] = [] := rfl

@[simp] theorem statementEntries_append :
    statementEntries (l₁ ++ l₂) = statementEntries l₁ ++ statementEntries l₂ := by
  simp [statementEntries]

@[simp] theorem deferredEntries_nil : deferredEntries [] = [] := rfl

@[simp] theorem deferredEntries_append :
    deferredEntries (l₁ ++ l₂) = deferredEntries l₁ ++ deferredEntries l₂ := by
  simp [deferredEntries]

include h

theorem statementEntries_cons :
    statementEntries (e :: l) = .statement e :: statementEntries l := by
  simp [statementEntries, visible, Entry.expr, h]

theorem statementEntries_singleton : statementEntries [e] = [.statement e] :=
  statementEntries_cons h []

theorem deferredEntries_cons : deferredEntries (e :: l) = .deferredRun e :: deferredEntries l := by
  simp [deferredEntries, visible, Entry.expr, h]

end

namespace CFGBuilder

/-! ### The graph of a builder -/

section

variable (b : CFGBuilder)

def items (i : ℕ) : List Entry := visible (b.block i).entries

def succs (i : ℕ) : List ℕ := (b.block i).successors

def preds (i : ℕ) : List ℕ := (b.block i).predecessors

def explicit (i : ℕ) : Bool := (b.block i).hasExplicitTerminator

def flow : FlowGraph Entry := ⟨b.items, b.succs⟩

end

variable {b b' b'' : CFGBuilder} {i j s t : ℕ} {stmt : Expr} {stmts : List Expr} {name : String}
  {kind : TerminatorKind}

@[simp] theorem nextID_modifyBlock (f : BuiltBlock → BuiltBlock) :
    (b.modifyBlock i f).nextID = b.nextID := by
  simp [nextID, modifyBlock]

theorem block_modifyBlock (f : BuiltBlock → BuiltBlock) (j : ℕ) :
    (b.modifyBlock i f).block j = if i = j ∧ i < b.nextID then f (b.block j) else b.block j := by
  simp only [block, modifyBlock, nextID, List.getD_eq_getElem?_getD, List.getElem?_modify]
  by_cases hj : j < b.blocks.length
  · by_cases hij : i = j
    · subst hij
      simp [hj]
    · simp [hij]
  · have : ¬ (i = j ∧ i < b.blocks.length) := by omega
    simp [hj, this]

/-- A change that keeps some part of a block keeps it everywhere. -/
theorem block_modifyBlock_of_keeps {α : Type} {f : BuiltBlock → BuiltBlock} (g : BuiltBlock → α)
    (h : ∀ bb, g (f bb) = g bb) (j : ℕ) : g ((b.modifyBlock i f).block j) = g (b.block j) := by
  rw [block_modifyBlock]
  split
  · exact h _
  · rfl

@[simp] theorem nextID_createBlock : (b.createBlock name).nextID = b.nextID + 1 := by
  simp [nextID, createBlock]

theorem block_createBlock (j : ℕ) :
    (b.createBlock name).block j = if j = b.nextID then .fresh name else b.block j := by
  simp only [block, createBlock, nextID, List.getD_eq_getElem?_getD]
  split_ifs with hj
  · simp [hj]
  · rcases Nat.lt_or_gt_of_ne hj with hlt | hgt
    · rw [List.getElem?_append_left hlt]
    · rw [List.getElem?_eq_none (by simpa using hgt), List.getElem?_eq_none (Nat.le_of_lt hgt)]

/-- There is nothing in a block that is not there. -/
theorem block_of_le (h : b.nextID ≤ j) : b.block j = .fresh "" := by
  rw [block, List.getD_eq_getElem?_getD, List.getElem?_eq_none h, Option.getD_none]

/-- A new block is as empty as before. -/
theorem block_createBlock_of_fresh {α : Type} (g : BuiltBlock → α)
    (h : ∀ name, g (.fresh name) = g (.fresh "")) (j : ℕ) :
    g ((b.createBlock name).block j) = g (b.block j) := by
  rw [block_createBlock]
  split_ifs with hj
  · rw [h, block_of_le hj.ge]
  · rfl

@[simp] theorem items_createBlock : (b.createBlock name).items = b.items :=
  funext (block_createBlock_of_fresh (fun bb => visible bb.entries) fun _ => rfl)

@[simp] theorem succs_createBlock : (b.createBlock name).succs = b.succs :=
  funext (block_createBlock_of_fresh (·.successors) fun _ => rfl)

@[simp] theorem preds_createBlock : (b.createBlock name).preds = b.preds :=
  funext (block_createBlock_of_fresh (·.predecessors) fun _ => rfl)

@[simp] theorem explicit_createBlock : (b.createBlock name).explicit = b.explicit :=
  funext (block_createBlock_of_fresh (·.hasExplicitTerminator) fun _ => rfl)

theorem items_of_le (h : b.nextID ≤ i) : b.items i = [] := by rw [items, block_of_le h]; rfl

theorem succs_of_le (h : b.nextID ≤ i) : b.succs i = [] := by rw [succs, block_of_le h]; rfl

theorem explicit_of_le (h : b.nextID ≤ i) : b.explicit i = false := by
  rw [explicit, block_of_le h]; rfl

@[simp] theorem nextID_addEdge : (b.addEdge s t).nextID = b.nextID := by simp [addEdge]

/-- What edges do not change of a block. -/
theorem block_addEdge_of_keeps {α : Type} (g : BuiltBlock → α)
    (hs : ∀ bb, g (bb.addSuccessor t) = g bb) (hp : ∀ bb, g (bb.addPredecessor s) = g bb) (j : ℕ) :
    g ((b.addEdge s t).block j) = g (b.block j) :=
  (block_modifyBlock_of_keeps g hp j).trans (block_modifyBlock_of_keeps g hs j)

@[simp] theorem items_addEdge : (b.addEdge s t).items = b.items :=
  funext (block_addEdge_of_keeps (fun bb => visible bb.entries) (fun _ => rfl)
    fun _ => rfl)

@[simp] theorem explicit_addEdge : (b.addEdge s t).explicit = b.explicit :=
  funext (block_addEdge_of_keeps (·.hasExplicitTerminator) (fun _ => rfl) fun _ => rfl)

theorem succs_addEdge (hs : s < b.nextID) (j : ℕ) :
    (b.addEdge s t).succs j = if s = j then b.succs j ++ [t] else b.succs j := by
  have hkeep := block_modifyBlock_of_keeps (b := b.modifyBlock s (·.addSuccessor t)) (i := t)
    (f := (·.addPredecessor s)) (·.successors) (fun _ => rfl) j
  refine hkeep.trans ?_
  simp only [block_modifyBlock, hs, and_true]
  split <;> rfl

theorem succs_addEdge_of_ne (h : s ≠ j) : (b.addEdge s t).succs j = b.succs j := by
  have hkeep := block_modifyBlock_of_keeps (b := b.modifyBlock s (·.addSuccessor t)) (i := t)
    (f := (·.addPredecessor s)) (·.successors) (fun _ => rfl) j
  refine hkeep.trans ?_
  simp only [block_modifyBlock, h, false_and, if_false]
  rfl

theorem preds_addEdge (ht : t < b.nextID) (j : ℕ) :
    (b.addEdge s t).preds j = if t = j then b.preds j ++ [s] else b.preds j := by
  have hkeep := block_modifyBlock_of_keeps (b := b) (i := s) (f := (·.addSuccessor t))
    (·.predecessors) (fun _ => rfl) j
  simp only [preds, addEdge, block_modifyBlock (j := j), nextID_modifyBlock, ht, and_true]
    at hkeep ⊢
  split
  · exact congrArg (· ++ [s]) hkeep
  · exact hkeep

section

@[simp] theorem nextID_addStatement : (b.addStatement i stmt).nextID = b.nextID := by
  simp [addStatement]

@[simp] theorem succs_addStatement : (b.addStatement i stmt).succs = b.succs :=
  funext (block_modifyBlock_of_keeps (·.successors) fun _ => rfl)

@[simp] theorem preds_addStatement : (b.addStatement i stmt).preds = b.preds :=
  funext (block_modifyBlock_of_keeps (·.predecessors) fun _ => rfl)

@[simp] theorem explicit_addStatement : (b.addStatement i stmt).explicit = b.explicit :=
  funext (block_modifyBlock_of_keeps (·.hasExplicitTerminator) fun _ => rfl)

theorem items_addStatement (hi : i < b.nextID) (j : ℕ) :
    (b.addStatement i stmt).items j =
      if i = j then b.items j ++ statementEntries [stmt] else b.items j := by
  simp only [items, addStatement, block_modifyBlock, hi, and_true]
  split
  · exact visible_append _ _
  · rfl

theorem items_addStatement_of_ne (h : i ≠ j) : (b.addStatement i stmt).items j = b.items j := by
  simp [items, addStatement, block_modifyBlock, h]

@[simp] theorem succs_addDeferredRuns :
    (b.modifyBlock i (·.addDeferredRuns stmts)).succs = b.succs :=
  funext (block_modifyBlock_of_keeps (f := (·.addDeferredRuns stmts)) (·.successors) fun _ => rfl)

@[simp] theorem explicit_addDeferredRuns :
    (b.modifyBlock i (·.addDeferredRuns stmts)).explicit = b.explicit :=
  funext (block_modifyBlock_of_keeps (f := (·.addDeferredRuns stmts)) (·.hasExplicitTerminator)
    fun _ => rfl)

theorem items_addDeferredRuns (hi : i < b.nextID) (j : ℕ) :
    (b.modifyBlock i (·.addDeferredRuns stmts)).items j =
      if i = j then b.items j ++ deferredEntries stmts else b.items j := by
  simp only [items, block_modifyBlock, hi, and_true]
  split
  · exact visible_append _ _
  · rfl

@[simp] theorem nextID_setTerminator : (b.setTerminator i kind).nextID = b.nextID := by
  simp [setTerminator]

@[simp] theorem items_setTerminator : (b.setTerminator i kind).items = b.items :=
  funext (block_modifyBlock_of_keeps (fun bb => visible bb.entries) fun _ => rfl)

@[simp] theorem succs_setTerminator : (b.setTerminator i kind).succs = b.succs :=
  funext (block_modifyBlock_of_keeps (·.successors) fun _ => rfl)

@[simp] theorem preds_setTerminator : (b.setTerminator i kind).preds = b.preds :=
  funext (block_modifyBlock_of_keeps (·.predecessors) fun _ => rfl)

theorem explicit_setTerminator_of_ne (h : i ≠ j) :
    (b.setTerminator i kind).explicit j = b.explicit j := by
  simp [explicit, setTerminator, block_modifyBlock, h]

end

/-! ### What is kept in order -/

/-- The edges are in the graph and known at both ends, and so are the targets of jumps. -/
structure Wired (b : CFGBuilder) : Prop where
  exit_lt : b.exitBlock < b.nextID
  break_lt : ∀ x ∈ b.loopBreakTarget, x < b.nextID
  continue_lt : ∀ x ∈ b.loopContinueTarget, x < b.nextID
  depth_le : b.loopDeferDepth ≤ b.deferScopes.length
  succ_lt : ∀ i, ∀ j ∈ b.succs i, i < b.nextID ∧ j < b.nextID
  mem_preds : ∀ i j, i ∈ b.preds j ↔ j ∈ b.succs i

/-- The builder stands nowhere, or at a block that goes nowhere. -/
structure Sane (b : CFGBuilder) : Prop extends Wired b where
  current : ∀ c, b.currentBlock = some c → c < b.nextID ∧ b.succs c = [] ∧ b.explicit c = false

theorem Sane.openBlock (h : b.Sane) : b.openBlock = b.currentBlock := by
  rw [CFGBuilder.openBlock]
  cases hc : b.currentBlock with
  | none => rfl
  | some c =>
    have hexp : (b.block c).hasExplicitTerminator = false := (h.current c hc).2.2
    simp [hexp]

/-- The graph has grown, and the blocks of `P` are as they were. -/
structure Grows (P : ℕ → Prop) (b b' : CFGBuilder) : Prop where
  nextID_le : b.nextID ≤ b'.nextID
  le : b.flow.Le b'.flow
  items : ∀ i, P i → b'.items i = b.items i
  succs : ∀ i, P i → b'.succs i = b.succs i
  explicit : ∀ i, P i → b'.explicit i = b.explicit i

/-- The targets, and the scopes but for the innermost, are as they were. -/
structure SameFrame (b b' : CFGBuilder) : Prop where
  exitBlock : b'.exitBlock = b.exitBlock
  loopBreakTarget : b'.loopBreakTarget = b.loopBreakTarget
  loopContinueTarget : b'.loopContinueTarget = b.loopContinueTarget
  loopDeferDepth : b'.loopDeferDepth = b.loopDeferDepth
  scopes_tail : b'.deferScopes.tail = b.deferScopes.tail
  scopes_length : b'.deferScopes.length = b.deferScopes.length

/-- Some steps of the builder. -/
structure Chain (P : ℕ → Prop) (b b' : CFGBuilder) : Prop where
  wired : b'.Wired
  grows : Grows P b b'
  frame : SameFrame b b'

variable {P Q : ℕ → Prop}

theorem Grows.of_eq (hid : b'.nextID = b.nextID) (hitems : b'.items = b.items)
    (hsuccs : b'.succs = b.succs) (hexp : ∀ i, P i → b'.explicit i = b.explicit i) :
    Grows P b b' := by
  refine ⟨hid.ge, ?_, fun i _ => congrFun hitems i, fun i _ => congrFun hsuccs i, hexp⟩
  rw [show b'.flow = b.flow by rw [flow, flow, hitems, hsuccs]]
  exact .refl _

theorem Grows.trans (h₁ : Grows P b b') (h₂ : Grows P b' b'') : Grows P b b'' where
  nextID_le := h₁.nextID_le.trans h₂.nextID_le
  le := h₁.le.trans h₂.le
  items i hi := (h₂.items i hi).trans (h₁.items i hi)
  succs i hi := (h₂.succs i hi).trans (h₁.succs i hi)
  explicit i hi := (h₂.explicit i hi).trans (h₁.explicit i hi)

theorem Grows.mono (h : Grows Q b b') (hPQ : ∀ i, P i → Q i) : Grows P b b' where
  nextID_le := h.nextID_le
  le := h.le
  items i hi := h.items i (hPQ i hi)
  succs i hi := h.succs i (hPQ i hi)
  explicit i hi := h.explicit i (hPQ i hi)

/-- The graph is still wired, if its edges are. -/
theorem Wired.of_frame (h : b.Wired) (hf : SameFrame b b') (hid : b.nextID ≤ b'.nextID)
    (hsucc : ∀ i, ∀ j ∈ b'.succs i, i < b'.nextID ∧ j < b'.nextID)
    (hpreds : ∀ i j, i ∈ b'.preds j ↔ j ∈ b'.succs i) : b'.Wired where
  exit_lt := by
    rw [hf.exitBlock]
    exact Nat.lt_of_lt_of_le h.exit_lt hid
  break_lt x hx := by
    rw [hf.loopBreakTarget] at hx
    exact Nat.lt_of_lt_of_le (h.break_lt x hx) hid
  continue_lt x hx := by
    rw [hf.loopContinueTarget] at hx
    exact Nat.lt_of_lt_of_le (h.continue_lt x hx) hid
  depth_le := by
    rw [hf.loopDeferDepth, hf.scopes_length]
    exact h.depth_le
  succ_lt := hsucc
  mem_preds := hpreds

theorem SameFrame.refl (b : CFGBuilder) : SameFrame b b := ⟨rfl, rfl, rfl, rfl, rfl, rfl⟩

theorem SameFrame.trans (h₁ : SameFrame b b') (h₂ : SameFrame b' b'') : SameFrame b b'' :=
  ⟨h₂.1.trans h₁.1, h₂.2.trans h₁.2, h₂.3.trans h₁.3, h₂.4.trans h₁.4, h₂.5.trans h₁.5,
    h₂.6.trans h₁.6⟩

namespace Chain

theorem refl (h : b.Wired) : Chain P b b :=
  ⟨h, .of_eq rfl rfl rfl fun _ _ => rfl, .refl b⟩

theorem trans (h₁ : Chain P b b') (h₂ : Chain P b' b'') : Chain P b b'' :=
  ⟨h₂.wired, h₁.grows.trans h₂.grows, h₁.frame.trans h₂.frame⟩

theorem mono (h : Chain Q b b') (hPQ : ∀ i, P i → Q i) : Chain P b b' :=
  ⟨h.wired, h.grows.mono hPQ, h.frame⟩

theorem nextID_le (h : Chain P b b') : b.nextID ≤ b'.nextID := h.grows.nextID_le

theorem setCurrent (h : Chain P b b') (c : Option ℕ) :
    Chain P b { b' with currentBlock := c } :=
  have hf : SameFrame b' { b' with currentBlock := c } := ⟨rfl, rfl, rfl, rfl, rfl, rfl⟩
  ⟨h.wired.of_frame hf le_rfl h.wired.succ_lt h.wired.mem_preds,
    h.grows.trans (.of_eq rfl rfl rfl fun _ _ => rfl), h.frame.trans hf⟩

theorem setInsertPoint (h : Chain P b b') (i : ℕ) : Chain P b (b'.setInsertPoint i) :=
  h.setCurrent (some i)

theorem createBlock (h : Chain P b b') (name : String) : Chain P b (b'.createBlock name) := by
  have hf : SameFrame b' (b'.createBlock name) := ⟨rfl, rfl, rfl, rfl, rfl, rfl⟩
  have hflow : (b'.createBlock name).flow = b'.flow := by simp [flow]
  refine ⟨h.wired.of_frame hf (by simp) (fun i j hj => ?_) ?_,
    h.grows.trans ⟨by simp, hflow ▸ .refl _, by simp, by simp, by simp⟩, h.frame.trans hf⟩
  · rw [succs_createBlock] at hj
    have := h.wired.succ_lt i j hj
    rw [nextID_createBlock]
    omega
  · simpa using h.wired.mem_preds

theorem addEdge (h : Chain P b b') (hP : ¬ P s) (hs : s < b'.nextID) (ht : t < b'.nextID) :
    Chain P b (b'.addEdge s t) := by
  have hf : SameFrame b' (b'.addEdge s t) := ⟨rfl, rfl, rfl, rfl, rfl, rfl⟩
  have hsuccs := succs_addEdge (b := b') (t := t) hs
  refine ⟨h.wired.of_frame hf (by simp) (fun i j hj => ?_) (fun i j => ?_),
    h.grows.trans ⟨by simp, ?_, by simp, fun i hi => ?_, by simp⟩, h.frame.trans hf⟩
  · rw [hsuccs] at hj
    rw [nextID_addEdge]
    split_ifs at hj with hi
    · obtain hj | hj := List.mem_append.mp hj
      · exact h.wired.succ_lt i j hj
      · obtain rfl := List.mem_singleton.mp hj
        exact ⟨hi ▸ hs, ht⟩
    · exact h.wired.succ_lt i j hj
  · rw [hsuccs, preds_addEdge ht]
    have := h.wired.mem_preds i j
    split_ifs with h₁ h₂ h₂ <;> simp [this, h₁, h₂, eq_comm]
  · refine ⟨fun i => ?_, fun i x hx => ?_, fun i _ => ?_⟩
    · show b'.items i <+: (b'.addEdge s t).items i
      rw [items_addEdge]
    · show x ∈ (b'.addEdge s t).succs i
      rw [hsuccs]
      split_ifs
      · exact List.mem_append_left _ hx
      · exact hx
    · show (b'.addEdge s t).items i = b'.items i
      rw [items_addEdge]
  · rw [hsuccs, if_neg]
    rintro rfl
    exact hP hi

/-- Something is added behind the statements of a block that goes nowhere. -/
theorem modifyBlock (h : Chain P b b') (hP : ¬ P i) (hnil : b'.succs i = [])
    {f : BuiltBlock → BuiltBlock} (hs : ∀ bb, (f bb).successors = bb.successors)
    (hp : ∀ bb, (f bb).predecessors = bb.predecessors)
    (hentries : ∀ bb, bb.entries <+: (f bb).entries) :
    Chain P b (b'.modifyBlock i f) := by
  have hf : SameFrame b' (b'.modifyBlock i f) := ⟨rfl, rfl, rfl, rfl, rfl, rfl⟩
  have hsuccs : (b'.modifyBlock i f).succs = b'.succs :=
    funext (block_modifyBlock_of_keeps (·.successors) hs)
  have hpreds : (b'.modifyBlock i f).preds = b'.preds :=
    funext (block_modifyBlock_of_keeps (·.predecessors) hp)
  have hother : ∀ j, i ≠ j → (b'.modifyBlock i f).block j = b'.block j := fun j hj => by
    simp [block_modifyBlock, hj]
  refine ⟨h.wired.of_frame hf (by simp) (by simpa [hsuccs] using h.wired.succ_lt)
      (by simpa [hsuccs, hpreds] using h.wired.mem_preds),
    h.grows.trans ⟨by simp, ⟨fun j => ?_, fun j x hx => ?_, fun j hj => ?_⟩, fun j hj => ?_,
      fun j _ => congrFun hsuccs j, fun j hj => ?_⟩, h.frame.trans hf⟩
  · show b'.items j <+: (b'.modifyBlock i f).items j
    rw [items, items, block_modifyBlock]
    split
    · exact (hentries _).filter _
    · exact List.prefix_rfl
  · show x ∈ (b'.modifyBlock i f).succs j
    rwa [hsuccs]
  · show (b'.modifyBlock i f).items j = b'.items j
    rw [items, hother j, items]
    rintro rfl
    exact hj hnil
  · rw [items, hother j, items]
    rintro rfl
    exact hP hj
  · rw [explicit, hother j, explicit]
    rintro rfl
    exact hP hj

theorem addStatement (h : Chain P b b') (hP : ¬ P i) (hnil : b'.succs i = []) (stmt : Expr) :
    Chain P b (b'.addStatement i stmt) :=
  h.modifyBlock hP hnil (fun _ => rfl) (fun _ => rfl) fun _ => List.prefix_append _ _

theorem addDeferredRuns (h : Chain P b b') (hP : ¬ P i) (hnil : b'.succs i = [])
    (stmts : List Expr) : Chain P b (b'.modifyBlock i (·.addDeferredRuns stmts)) :=
  h.modifyBlock hP hnil (fun _ => rfl) (fun _ => rfl) fun _ => List.prefix_append _ _

theorem setTerminator (h : Chain P b b') (hP : ¬ P i) (kind : TerminatorKind) :
    Chain P b (b'.setTerminator i kind) := by
  have hf : SameFrame b' (b'.setTerminator i kind) := ⟨rfl, rfl, rfl, rfl, rfl, rfl⟩
  refine ⟨h.wired.of_frame hf (by simp) (by simpa using h.wired.succ_lt)
      (by simpa using h.wired.mem_preds),
    h.grows.trans (.of_eq (by simp) (by simp) (by simp) fun j hj => ?_), h.frame.trans hf⟩
  refine explicit_setTerminator_of_ne ?_
  rintro rfl
  exact hP hj

end Chain

end CFGBuilder

end TurfLang
