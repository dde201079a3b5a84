import TurfLang.Sema.SliceWrites

/-!
# Without mutual recursion the write search is exact

In a resolved program whose views are stored, handed on and written by name, the collector finds
exactly the views there are, and one look at a body follows the definition of a write. A single
look then goes wrong only at open keys, so functions that do not hand a slice round a cycle of
several are always judged rightly.
-/

namespace TurfLang.Slice

open TurfLang.Search (Mark Memo ExactRun SightedRun)

/-! ### The nodes below a node -/

/-- The children an `ASTChildWalker` visits. -/
def Expr.children : Expr → List Expr
  | .absent => []
  | .var _ => []
  | .arrayAccess base index _ => [base, index]
  | .slice base start stop => [base, start, stop]
  | .fieldAccess base => [base]
  | .giveOtherwise c t e => [c, t, e]
  | .varDecl _ init => [init]
  | .arrayDecl _ inits init => inits ++ [init]
  | .assignment lhs rhs => [lhs, rhs]
  | .compoundAssignment lhs rhs => [lhs, rhs]
  | .postfixExpr e => [e]
  | .funcCall callee args _ => callee :: args
  | .methodCall base args _ _ => base :: args
  | .node children => children

theorem mem_nodesOfList {n : Expr} {es : List Expr} :
    n ∈ nodesOfList es ↔ ∃ e ∈ es, n ∈ e.nodes := by
  induction es with
  | nil => simp [nodesOfList]
  | cons e es ih => simp [nodesOfList, ih]

/-- A node is visited at an expression, or below one of its children. -/
theorem Expr.mem_nodes {n e : Expr} :
    n ∈ e.nodes ↔ (n = e ∧ e ≠ .absent) ∨ ∃ c ∈ e.children, n ∈ c.nodes := by
  cases e <;> simp [Expr.nodes, Expr.children, mem_nodesOfList, or_and_right, exists_or]

theorem Expr.sizeOf_children {c e : Expr} (h : c ∈ e.children) : sizeOf c < sizeOf e := by
  have hlt : ∀ {es : List Expr}, c ∈ es → sizeOf c < sizeOf es := fun h => List.sizeOf_lt_of_mem h
  cases e with
  | arrayDecl s inits init =>
    obtain hc | hc := List.mem_append.mp h
    · have := hlt hc
      simp only [arrayDecl.sizeOf_spec]
      omega
    · obtain rfl := List.mem_singleton.mp hc
      simp only [arrayDecl.sizeOf_spec]
      omega
  | funcCall callee args t =>
    obtain rfl | hc := List.mem_cons.mp h
    · simp only [funcCall.sizeOf_spec]
      omega
    · have := hlt hc
      simp only [funcCall.sizeOf_spec]
      omega
  | methodCall base args t u =>
    obtain rfl | hc := List.mem_cons.mp h
    · simp only [methodCall.sizeOf_spec]
      omega
    · have := hlt hc
      simp only [methodCall.sizeOf_spec]
      omega
  | node children =>
    have : sizeOf c < sizeOf children := hlt h
    simp only [node.sizeOf_spec]
    omega
  | absent => simp [children] at h
  | var v => simp [children] at h
  | _ =>
    simp only [children, List.mem_cons, List.not_mem_nil, or_false] at h
    grind

theorem Expr.nodes_subset {n e : Expr} (h : n ∈ e.nodes) : n.nodes ⊆ e.nodes := by
  obtain ⟨rfl, -⟩ | ⟨c, hc, hn⟩ := Expr.mem_nodes.mp h
  · exact fun _ hm => hm
  · have hlt := Expr.sizeOf_children hc
    exact fun m hm => Expr.mem_nodes.mpr (.inr ⟨c, hc, Expr.nodes_subset hn hm⟩)
termination_by sizeOf e

/-- What is below a child of a visited node is visited. -/
theorem Expr.mem_nodes_of_child {n c m e : Expr} (hn : n ∈ e.nodes) (hc : c ∈ n.children)
    (hm : m ∈ c.nodes) : m ∈ e.nodes :=
  Expr.nodes_subset hn (Expr.mem_nodes.mpr (.inr ⟨c, hc, hm⟩))

/-! ### Plain expressions -/

/-- The walk down to the variable meets no `operator[]` read and no `give`/`otherwise`. -/
def Expr.plain : Expr → Bool
  | .arrayAccess base _ resolvedIndexGet => !resolvedIndexGet && base.plain
  | .slice base _ _ => base.plain
  | .fieldAccess base => base.plain
  | .giveOtherwise _ _ _ => false
  | _ => true

theorem roots_eq {e : Expr} (h : e.plain = true) :
    roots e = ((rootVariable e).bind VariableExpr.resolvedSymbol).toList := by
  induction e using roots.induct with
  | case1 v => rfl
  | case2 base index => simp [Expr.plain] at h
  | case3 base index g hg ih => simp_all [Expr.plain, roots, rootVariable]
  | case4 base start stop ih => exact ih h
  | case5 base ih => exact ih h
  | case6 c t e _ _ => simp [Expr.plain] at h
  | case7 e _ _ _ _ _ => cases e <;> simp_all [roots, rootVariable]

/-- Over plain expressions, a root in the views is what `inViews` looks for. -/
theorem inViews_iff {e : Expr} {views : Finset Symbol} (h : e.plain = true) :
    inViews e views = true ↔ ∃ r ∈ roots e, r ∈ views := by
  rw [roots_eq h]
  unfold inViews
  cases rootVariable e with
  | none => simp
  | some v => cases hv : v.resolvedSymbol <;> simp [hv]

theorem isSliceElementPlaceFrom_true {e : Expr} {views : Finset Symbol} (h : e.plain = true) :
    isSliceElementPlaceFrom views true e = inViews e views := by
  induction e using roots.induct with
  | case1 v => simp [isSliceElementPlaceFrom, inViews, rootVariable]
  | case2 base index => simp [Expr.plain] at h
  | case3 base index g hg ih => simp_all [Expr.plain, isSliceElementPlaceFrom, inViews, rootVariable]
  | case4 base start stop ih => exact ih h
  | case5 base ih => exact ih h
  | case6 c t e _ _ => simp [Expr.plain] at h
  | case7 e _ _ _ _ _ => cases e <;> simp_all [isSliceElementPlaceFrom, inViews, rootVariable]

theorem isSliceElementPlace_iff {e : Expr} {views : Finset Symbol} (h : e.plain = true) :
    isSliceElementPlace e views = true ↔ ∃ r ∈ elementRoots e, r ∈ views := by
  unfold isSliceElementPlace
  induction e using elementRoots.induct with
  | case1 base index => simp [Expr.plain] at h
  | case2 base index g hg =>
    have hb : base.plain = true := by simp_all [Expr.plain]
    simp [isSliceElementPlaceFrom, elementRoots, hg, isSliceElementPlaceFrom_true hb,
      inViews_iff hb]
  | case3 base start stop ih => exact ih h
  | case4 base ih => exact ih h
  | case5 c t e _ _ => simp [Expr.plain] at h
  | case6 e _ _ _ _ => cases e <;> simp_all [isSliceElementPlaceFrom, elementRoots]

/-- A root of an expression is a variable used in it. -/
theorem exists_var_of_roots {e : Expr} {r : Symbol} (h : r ∈ roots e) :
    ∃ v, .var v ∈ e.nodes ∧ v.resolvedSymbol = some r := by
  induction e using roots.induct with
  | case1 v => exact ⟨v, by simp [Expr.nodes], by simpa [roots] using h⟩
  | case2 base index => simp [roots] at h
  | case3 base index g hg ih =>
    obtain ⟨v, hv, hr⟩ := ih (by simpa [roots, hg] using h)
    exact ⟨v, by simp [Expr.nodes, hv], hr⟩
  | case4 base start stop ih =>
    obtain ⟨v, hv, hr⟩ := ih h
    exact ⟨v, by simp [Expr.nodes, hv], hr⟩
  | case5 base ih =>
    obtain ⟨v, hv, hr⟩ := ih h
    exact ⟨v, by simp [Expr.nodes, hv], hr⟩
  | case6 c t e iht ihe =>
    obtain h | h := List.mem_append.mp h
    · obtain ⟨v, hv, hr⟩ := iht h
      exact ⟨v, by simp [Expr.nodes, hv], hr⟩
    · obtain ⟨v, hv, hr⟩ := ihe h
      exact ⟨v, by simp [Expr.nodes, hv], hr⟩
  | case7 e _ _ _ _ _ => cases e <;> simp_all [roots]

/-- So is a root of a place. -/
theorem exists_var_of_elementRoots {e : Expr} {r : Symbol} (h : r ∈ elementRoots e) :
    ∃ v, .var v ∈ e.nodes ∧ v.resolvedSymbol = some r := by
  induction e using elementRoots.induct with
  | case1 base index => simp [elementRoots] at h
  | case2 base index g hg =>
    obtain ⟨v, hv, hr⟩ := exists_var_of_roots (e := base) (by simpa [elementRoots, hg] using h)
    exact ⟨v, by simp [Expr.nodes, hv], hr⟩
  | case3 base start stop ih =>
    obtain ⟨v, hv, hr⟩ := ih h
    exact ⟨v, by simp [Expr.nodes, hv], hr⟩
  | case4 base ih =>
    obtain ⟨v, hv, hr⟩ := ih h
    exact ⟨v, by simp [Expr.nodes, hv], hr⟩
  | case5 c t e iht ihe =>
    obtain h | h := List.mem_append.mp h
    · obtain ⟨v, hv, hr⟩ := iht h
      exact ⟨v, by simp [Expr.nodes, hv], hr⟩
    · obtain ⟨v, hv, hr⟩ := ihe h
      exact ⟨v, by simp [Expr.nodes, hv], hr⟩
  | case6 e _ _ _ _ => cases e <;> simp_all [elementRoots]

namespace Program

/-- What the Resolver promises: the uses of a parameter's name that it takes for a parameter are
the uses of that parameter. -/
def Resolved (P : Program) : Prop :=
  ∀ (key : Key) (param : ParamDecl), (P.decl key.1).params[key.2]? = some param →
    ∀ v, .var v ∈ (P.decl key.1).body.nodes → ∀ s, v.resolvedSymbol = some s →
      ((v.name = param.name ∧ (P.symbols s).isParameter = true) ↔ s = param.symbol)

/-- Views are stored, handed on and written by name, and no view is the receiver of a method
that writes its `self` through a slice. -/
structure Plain (P : Program) : Prop where
  stores : ∀ d, ∀ n ∈ (P.decl d).body.nodes, ∀ x value, n.stores = some (x, value) →
    value.plain = true
  handed : ∀ d, ∀ n ∈ (P.decl d).body.nodes, ∀ arg ∈ P.handed n, arg.1.plain = true
  written : ∀ d, ∀ n ∈ (P.decl d).body.nodes, ∀ place, P.written n = some place →
    place.plain = true
  receives : ∀ d, ∀ n ∈ (P.decl d).body.nodes, ∀ arg ∈ P.receives n, ¬P.Writes arg.2

variable {P : Program} {body : Expr} {s : Symbol}

/-! ### The collector finds the views -/

theorem subset_collectAlias (views : Finset Symbol) (n : Expr) :
    views ⊆ P.collectAlias views n := by
  unfold collectAlias
  split
  · split
    · exact Finset.subset_insert _ _
    · exact subset_rfl
  · exact subset_rfl

theorem subset_foldl_collectAlias (views : Finset Symbol) (ns : List Expr) :
    views ⊆ ns.foldl P.collectAlias views := by
  induction ns generalizing views with
  | nil => exact subset_rfl
  | cons n ns ih => exact (subset_collectAlias views n).trans (ih _)

/-- The variables the nodes of a body store into. -/
def storedSymbols (body : Expr) : Finset Symbol :=
  (body.nodes.filterMap fun n => n.stores.map Prod.fst).toFinset

theorem collectAliases_subset {views : Finset Symbol} (h : views ⊆ insert s (storedSymbols body)) :
    P.collectAliases body views ⊆ insert s (storedSymbols body) := by
  suffices hns : ∀ ns : List Expr, ns ⊆ body.nodes → ∀ views ⊆ insert s (storedSymbols body),
      ns.foldl P.collectAlias views ⊆ insert s (storedSymbols body) from
    hns body.nodes (fun _ hn => hn) views h
  intro ns
  induction ns with
  | nil => exact fun _ views hv => hv
  | cons n ns ih =>
    intro hns views hv
    refine ih (fun m hm => hns (List.mem_cons_of_mem _ hm)) _ ?_
    unfold collectAlias
    cases hst : n.stores with
    | none => exact hv
    | some st =>
      obtain ⟨x, value⟩ := st
      have hx : x ∈ storedSymbols body :=
        List.mem_toFinset.mpr (List.mem_filterMap.mpr
          ⟨n, hns List.mem_cons_self, by simp [hst]⟩)
      dsimp only
      split
      · exact Finset.insert_subset (Finset.mem_insert_of_mem hx) hv
      · exact hv

/-- The walks of the collector are over when `views` stops. -/
theorem collectAliases_views : P.collectAliases body (P.views body s) = P.views body s := by
  unfold views
  refine Loop.untilStable_stable (U := insert s (storedSymbols body))
    (fun views => subset_foldl_collectAlias views _) (fun views => collectAliases_subset)
    (by simp) ?_
  calc (insert s (storedSymbols body)).card
      ≤ (storedSymbols body).card + 1 := Finset.card_insert_le _ _
    _ ≤ body.nodes.length + 1 := by
      have := List.toFinset_card_le (body.nodes.filterMap fun n => n.stores.map Prod.fst)
      have := List.length_filterMap_le (fun n : Expr => n.stores.map Prod.fst) body.nodes
      unfold storedSymbols
      omega
    _ = ({s} : Finset Symbol).card + body.nodes.length := by simp [Nat.add_comm]

/-- So no node stores a view in a variable that is not one. -/
theorem collectAlias_views {n : Expr} (hn : n ∈ body.nodes) :
    P.collectAlias (P.views body s) n = P.views body s := by
  obtain ⟨pre, post, hsplit⟩ := List.append_of_mem hn
  have hall : P.collectAliases body (P.views body s) = P.views body s := collectAliases_views
  unfold collectAliases at hall
  rw [hsplit, List.foldl_append, List.foldl_cons] at hall
  have hpre : pre.foldl P.collectAlias (P.views body s) = P.views body s := by
    refine (subset_antisymm ?_ (subset_foldl_collectAlias _ _))
    calc pre.foldl P.collectAlias (P.views body s)
        ⊆ P.collectAlias (pre.foldl P.collectAlias (P.views body s)) n := subset_collectAlias _ _
      _ ⊆ P.views body s := (subset_foldl_collectAlias _ _).trans hall.subset
  rw [hpre] at hall
  exact subset_antisymm ((subset_foldl_collectAlias _ _).trans hall.subset)
    (subset_collectAlias _ _)

theorem viewed_of_mem_foldl (hplain : ∀ n ∈ body.nodes, ∀ x value, n.stores = some (x, value) →
    value.plain = true) {ns : List Expr} (hns : ns ⊆ body.nodes) {views : Finset Symbol}
    (hviews : ∀ x ∈ views, P.Viewed body s x) {x : Symbol}
    (hx : x ∈ ns.foldl P.collectAlias views) : P.Viewed body s x := by
  induction ns generalizing views with
  | nil => exact hviews x hx
  | cons n ns ih =>
    have hn : n ∈ body.nodes := hns List.mem_cons_self
    refine ih (fun m hm => hns (List.mem_cons_of_mem _ hm)) (fun y hy => ?_) hx
    unfold collectAlias at hy
    cases hst : n.stores with
    | none => exact hviews y (by simpa [hst] using hy)
    | some st =>
      obtain ⟨z, value⟩ := st
      simp only [hst] at hy
      split at hy
      case isFalse => exact hviews y hy
      case isTrue hcond =>
        obtain ⟨hun, hin⟩ := Bool.and_eq_true_iff.mp hcond
        obtain rfl | hy := Finset.mem_insert.mp hy
        · obtain ⟨r, hr, hrv⟩ := (inViews_iff (hplain n hn y value hst)).mp hin
          exact .stored hn hst hun hr (hviews r hrv)
        · exact hviews y hy

/-- Over plain stores, the collector finds exactly the views. -/
theorem mem_views (hplain : ∀ n ∈ body.nodes, ∀ x value, n.stores = some (x, value) →
    value.plain = true) {x : Symbol} : x ∈ P.views body s ↔ P.Viewed body s x := by
  constructor
  · have hinit : ∀ x ∈ ({s} : Finset Symbol), P.Viewed body s x := by
      intro x hx
      obtain rfl := Finset.mem_singleton.mp hx
      exact .itself
    exact Loop.untilStable_induct (P := fun views => ∀ x ∈ views, P.Viewed body s x) hinit
      (fun views hviews x hx => viewed_of_mem_foldl hplain (fun _ hn => hn) hviews hx) _ x
  · intro h
    induction h with
    | itself =>
      exact Loop.untilStable_induct (P := fun views => s ∈ views) (Finset.mem_singleton_self s)
        (fun views hv => subset_foldl_collectAlias _ _ hv) _
    | @stored n value x r hn hst hun hr _ ih =>
      have hin : inViews value (P.views body s) = true :=
        (inViews_iff (hplain n hn x value hst)).mpr ⟨r, hr, ih⟩
      rw [← collectAlias_views hn]
      simp [collectAlias, hst, hun, hin]

/-! ### One look at a body -/

theorem stores_child {n value : Expr} {x : Symbol} (h : n.stores = some (x, value)) :
    value ∈ n.children := by
  unfold Expr.stores at h
  split at h
  · simp_all [Expr.children]
  · simp_all [Expr.children]
  · simp_all [Expr.children]
  · simp at h

theorem written_child {n place : Expr} (h : P.written n = some place) : place ∈ n.children := by
  unfold written at h
  split at h <;> simp_all [Expr.children]

theorem mem_passed {receiver : Option Expr} {args : List Expr} {offset i : ℕ} {arg : Expr}
    (h : (arg, i) ∈ passed receiver args offset) : receiver = some arg ∨ arg ∈ args := by
  obtain h | h := List.mem_append.mp h
  · obtain ⟨e, he, heq⟩ := List.mem_map.mp h
    simp only [Prod.mk.injEq] at heq
    exact .inl (by simpa [heq.1] using he)
  · obtain ⟨-, -, heq⟩ := List.mem_zipIdx h
    exact .inr (heq ▸ List.getElem_mem _)

theorem mem_handedTo {t : Target} {args : List (Expr × ℕ)} {arg : Expr} {key : Key}
    (h : (arg, key) ∈ P.handedTo t args) : ∃ i, (arg, i) ∈ args := by
  obtain ⟨⟨e, i⟩, hmem, heq⟩ := List.mem_filterMap.mp h
  unfold handedArgument at heq
  split at heq
  · obtain ⟨_, -, heq⟩ := Option.map_eq_some_iff.mp heq
    simp only [Prod.mk.injEq] at heq
    exact ⟨i, heq.1 ▸ hmem⟩
  · simp at heq

theorem handsOn_child {n arg : Expr} {key : Key} (h : (arg, key) ∈ P.handsOn n) :
    arg ∈ n.children := by
  obtain h | h := List.mem_append.mp h
  · unfold handed at h
    split at h
    · obtain ⟨i, hi⟩ := mem_handedTo h
      obtain hr | ha := mem_passed hi
      · simp at hr
      · exact List.mem_cons_of_mem _ ha
    · obtain ⟨i, hi⟩ := mem_handedTo h
      obtain hr | ha := mem_passed hi
      · simp_all [Expr.children]
      · exact List.mem_cons_of_mem _ ha
    · obtain ⟨i, hi⟩ := mem_handedTo h
      obtain hr | ha := mem_passed hi
      · simp at hr
      · exact List.mem_cons_of_mem _ ha
    · simp at h
  · unfold receives at h
    split at h
    · split at h
      · simp at h
      · obtain ⟨_, -, heq⟩ := List.mem_map.mp h
        simp only [Prod.mk.injEq] at heq
        simp [Expr.children, heq.1]
    · simp at h

/-- A variable that views another one's array is that one, or the body uses that one. -/
theorem Viewed.used {x : Symbol} (h : P.Viewed body s x) :
    x = s ∨ ∃ v, .var v ∈ body.nodes ∧ v.resolvedSymbol = some s := by
  induction h with
  | itself => exact .inl rfl
  | @stored n value x r hn hst _ hr _ ih =>
    obtain rfl | hused := ih
    · obtain ⟨v, hv, hs⟩ := exists_var_of_roots hr
      exact .inr ⟨v, Expr.mem_nodes_of_child hn (stores_child hst) hv, hs⟩
    · exact .inr hused

theorem exists_paramDecl {key : Key} (h : P.paramSymbol key = some s) :
    ∃ param, (P.decl key.1).params[key.2]? = some param ∧ param.symbol = s :=
  Option.map_eq_some_iff.mp h

/-- What `findParam` finds is the symbol of the parameter. -/
theorem eq_of_findParam (hres : P.Resolved) {key : Key} {param : ParamDecl}
    (hparam : (P.decl key.1).params[key.2]? = some param)
    (h : P.findParam (P.decl key.1).body param.name = some s) : s = param.symbol := by
  obtain ⟨n, hn, hs⟩ := List.exists_of_findSome?_eq_some h
  cases n with
  | var v =>
    dsimp only at hs
    split at hs
    case isTrue hname =>
      obtain ⟨hsym, hpar⟩ := Option.filter_eq_some_iff.mp hs
      exact (hres key param hparam v hn s hsym).mp ⟨hname, hpar⟩
    case isFalse => simp at hs
  | _ => simp at hs

/-- The views the search looks at are those of the parameter. -/
theorem eq_of_viewsOf (hres : P.Resolved) {key : Key} {views : Finset Symbol}
    (h : P.viewsOf key = some views) :
    ∃ s, P.paramSymbol key = some s ∧ views = P.views (P.decl key.1).body s := by
  obtain ⟨param, hparam, h⟩ := Option.bind_eq_some_iff.mp h
  obtain ⟨s, hfind, rfl⟩ := Option.map_eq_some_iff.mp h
  obtain rfl := eq_of_findParam hres hparam hfind
  exact ⟨_, by simp [paramSymbol, hparam], rfl⟩

/-- The search looks at the views of a parameter, if the body uses it. -/
theorem viewsOf_of_used (hres : P.Resolved) {key : Key} (hs : P.paramSymbol key = some s)
    (hused : ∃ v, .var v ∈ (P.decl key.1).body.nodes ∧ v.resolvedSymbol = some s) :
    P.viewsOf key = some (P.views (P.decl key.1).body s) := by
  obtain ⟨param, hparam, rfl⟩ := exists_paramDecl hs
  have hfind : P.findParam (P.decl key.1).body param.name = some param.symbol := by
    cases hf : P.findParam (P.decl key.1).body param.name with
    | none =>
      obtain ⟨v, hv, hsym⟩ := hused
      have hnone := List.findSome?_eq_none_iff.mp hf _ hv
      obtain ⟨hname, hpar⟩ := (hres key param hparam v hv _ hsym).mpr rfl
      simp [hname, hsym, hpar] at hnone
    | some s' => rw [eq_of_findParam hres hparam hf]
  simp [viewsOf, hparam, hfind]

/-- A view that occurs below a node of the body is among the views the search looks at. -/
theorem exists_viewsOf (hplain : P.Plain) (hres : P.Resolved) {key : Key} {n child : Expr}
    {r : Symbol} (hs : P.paramSymbol key = some s) (hn : n ∈ (P.decl key.1).body.nodes)
    (hchild : child ∈ n.children)
    (hr : ∃ v, .var v ∈ child.nodes ∧ v.resolvedSymbol = some r)
    (hview : P.Viewed (P.decl key.1).body s r) :
    ∃ views, P.viewsOf key = some views ∧ r ∈ views := by
  have hused : ∃ v, .var v ∈ (P.decl key.1).body.nodes ∧ v.resolvedSymbol = some s := by
    obtain rfl | hused := hview.used
    · obtain ⟨v, hv, hsym⟩ := hr
      exact ⟨v, Expr.mem_nodes_of_child hn hchild hv, hsym⟩
    · exact hused
  exact ⟨_, viewsOf_of_used hres hs hused, (mem_views (hplain.stores key.1)).mpr hview⟩

/-- In a resolved, plain program a parameter that is written is written by its own body, or the
body hands a view of it to another parameter that is written. -/
theorem Writes.look (hplain : P.Plain) (hres : P.Resolved) {key : Key} (h : P.Writes key) :
    P.graph.hit key = true ∨ ∃ c ∈ P.graph.next key, c ≠ key ∧ P.Writes c := by
  induction h with
  | @place key s n place r hs hn hplace hr hview =>
    obtain ⟨views, hviews, hmem⟩ := exists_viewsOf hplain hres hs hn (written_child hplace)
      (exists_var_of_elementRoots hr) hview
    have hhere : P.writesHere views n = true := by
      rw [writesHere, hplace, Option.any_some]
      exact (isSliceElementPlace_iff (hplain.written _ n hn place hplace)).mpr ⟨r, hr, hmem⟩
    refine .inl ?_
    simp only [graph, hviews, Option.any_some]
    exact List.any_eq_true.mpr ⟨n, hn, hhere⟩
  | @handOff key s n arg key' r hs hn hmem hr hview hw ih =>
    obtain hin | hin := List.mem_append.mp hmem
    case inr => exact absurd hw (hplain.receives _ n hn _ hin)
    obtain ⟨views, hviews, hmem⟩ := exists_viewsOf hplain hres hs hn (handsOn_child hmem)
      (exists_var_of_roots hr) hview
    by_cases hkey : key' = key
    · -- a function that hands the slice to itself is written where it is written otherwise
      exact hkey ▸ ih
    · refine .inr ⟨key', ?_, hkey, hw⟩
      simp only [graph, hviews, Option.elim_some]
      refine List.mem_flatMap.mpr ⟨n, hn, List.mem_map.mpr ⟨(arg, key'), ?_, rfl⟩⟩
      exact List.mem_filter.mpr
        ⟨hin, (inViews_iff (hplain.handed _ n hn _ hin)).mpr ⟨r, hr, hmem⟩⟩

/-- What a look at the body shows is a write. -/
theorem writes_of_look (hplain : P.Plain) (hres : P.Resolved) {key : Key}
    (h : P.graph.hit key = true ∨ ∃ c ∈ P.graph.next key, P.Writes c) : P.Writes key := by
  cases hviews : P.viewsOf key with
  | none => simp [graph, hviews] at h
  | some views =>
    obtain ⟨s, hs, rfl⟩ := eq_of_viewsOf hres hviews
    simp only [graph, hviews, Option.any_some, Option.elim_some] at h
    obtain hhit | ⟨c, hc, hw⟩ := h
    · obtain ⟨n, hn, hhere⟩ := List.any_eq_true.mp hhit
      unfold writesHere at hhere
      cases hplace : P.written n with
      | none => simp [hplace] at hhere
      | some place =>
        rw [hplace, Option.any_some] at hhere
        obtain ⟨r, hr, hrv⟩ :=
          (isSliceElementPlace_iff (hplain.written _ n hn place hplace)).mp hhere
        exact .place hs hn hplace hr ((mem_views (hplain.stores key.1)).mp hrv)
    · obtain ⟨n, hn, hc⟩ := List.mem_flatMap.mp hc
      obtain ⟨⟨arg, c⟩, hmem, rfl⟩ := List.mem_map.mp hc
      obtain ⟨hmem, hin⟩ := List.mem_filter.mp hmem
      obtain ⟨r, hr, hrv⟩ := (inViews_iff (hplain.handed _ n hn _ hmem)).mp hin
      exact .handOff hs hn (List.mem_append_left _ hmem) hr
        ((mem_views (hplain.stores key.1)).mp hrv) hw

/-! ### No mutual recursion -/

/-- One parameter's views are handed to another one. -/
def Hands (P : Program) (key key' : Key) : Prop := key' ∈ P.graph.next key ∧ key' ≠ key

/-- No slice is handed round a cycle of several parameters; a function may hand its parameter to
itself. -/
def Acyclic (P : Program) : Prop := ∀ key, ¬Relation.TransGen P.Hands key key

theorem transGen_hands {key key' : Key}
    (h : Relation.TransGen (fun a b => b ∈ P.graph.next a) key key') :
    key = key' ∨ Relation.TransGen P.Hands key key' := by
  induction h with
  | @single b hb =>
    by_cases hne : b = key
    · exact .inl hne.symm
    · exact .inr (.single ⟨hb, hne⟩)
  | @tail b c _ hc ih =>
    by_cases hne : c = b
    · exact hne ▸ ih
    · obtain rfl | ih := ih
      · exact .inr (.single ⟨hc, hne⟩)
      · exact .inr (ih.tail ⟨hc, hne⟩)

/-- Between questions, a key is opened only where one look at it is right. -/
theorem sighted_of_acyclic (hplain : P.Plain) (hres : P.Resolved) (hacyclic : P.Acyclic)
    {memo : Memo Key} (hidle : Search.Idle memo) (key : Key) :
    Search.Sighted P.graph P.Writes memo key := by
  intro memo' key' hopens
  constructor
  · intro hw
    obtain hhit | ⟨c, hc, hne, hwc⟩ := hw.look hplain hres
    · exact .inl hhit
    · refine .inr ⟨c, hc, hne, fun hopen => ?_, hwc⟩
      -- an open `c` would have led here, and the slice is handed back to it
      obtain hopen | hreach := hopens.reaches hopen
      · exact hidle c hopen
      · obtain heq | hreach := transGen_hands hreach
        · exact hne heq
        · exact hacyclic key' (.head ⟨hc, hne⟩ hreach)
  · rintro (hhit | ⟨c, hc, -, -, hwc⟩)
    · exact writes_of_look hplain hres (.inl hhit)
    · exact writes_of_look hplain hres (.inr ⟨c, hc, hwc⟩)

end Program

/-- `fn f(p: int[]) { p[0] = 1; }` and `fn g(q: int[]) { f(q); }`. -/
def forwardProgram : Program where
  symbols _ := ⟨.array .int .unsized, false, true, (0, 0)⟩
  decls :=
    [⟨[⟨"p", 0⟩], .node [.assignment (.arrayAccess (use "p" 0) (.node []) false) (.node [])]⟩,
    ⟨[⟨"q", 1⟩], .node [.funcCall .absent [use "q" 1] (some (takesSlice "f" "p" 0))]⟩]
  mutatesSelfTransitively _ := false

theorem eq_of_hands_forwardProgram {key key' : Key} (h : forwardProgram.Hands key key') :
    key' = (0, 0) ∧ key ≠ (0, 0) := by
  have hmem := Program.mem_handedKeys h.1
  have hkeys : forwardProgram.handedKeys = {(0, 0)} := by decide
  rw [hkeys, Finset.mem_singleton] at hmem
  exact ⟨hmem, fun heq => h.2 (hmem.trans heq.symm)⟩

theorem acyclic_forwardProgram : forwardProgram.Acyclic := by
  intro key h
  obtain ⟨b, hb, -⟩ := Relation.TransGen.head'_iff.mp h
  obtain ⟨c, -, hc⟩ := Relation.TransGen.tail'_iff.mp h
  exact (eq_of_hands_forwardProgram hb).2 (eq_of_hands_forwardProgram hc).1

/-- All nodes of both functions. -/
theorem mem_nodes_forwardProgram {d : DeclId} {n : Expr}
    (hn : n ∈ (forwardProgram.decl d).body.nodes) :
    (∃ es, n = .node es) ∨ (d = 0 ∧ n = use "p" 0) ∨ (d = 1 ∧ n = use "q" 1) ∨
      (d = 0 ∧ n = .arrayAccess (use "p" 0) (.node []) false) ∨
      (d = 0 ∧ n = .assignment (.arrayAccess (use "p" 0) (.node []) false) (.node [])) ∨
      (d = 1 ∧ n = .funcCall .absent [use "q" 1] (some (takesSlice "f" "p" 0))) := by
  rcases d with _ | _ | d
  · simp only [Program.decl, forwardProgram, Expr.nodes, nodesOfList, use, List.getD_cons_zero,
      List.append_nil, List.cons_append, List.nil_append, List.mem_cons, List.not_mem_nil,
      or_false, or_self] at hn
    obtain rfl | rfl | rfl | rfl | rfl := hn <;> simp [use]
  · simp only [Program.decl, forwardProgram, Expr.nodes, nodesOfList, use, List.getD_cons_succ,
      List.getD_cons_zero, List.append_nil, List.nil_append, List.mem_cons, List.not_mem_nil,
      or_false] at hn
    obtain rfl | rfl | rfl := hn <;> simp [use]
  · simp [Program.decl, forwardProgram, Expr.nodes] at hn

theorem resolved_forwardProgram : forwardProgram.Resolved := by
  rintro ⟨d, i⟩ param hparam v hv s hs
  have hvar : (d = 0 ∧ v = ⟨"p", some 0, false⟩) ∨ (d = 1 ∧ v = ⟨"q", some 1, false⟩) := by
    simpa [use] using mem_nodes_forwardProgram hv
  obtain ⟨rfl, rfl⟩ | ⟨rfl, rfl⟩ := hvar
  · obtain rfl := Option.some.inj hs
    rcases i with _ | i
    · obtain rfl := Option.some.inj hparam
      exact ⟨fun _ => rfl, fun _ => ⟨rfl, rfl⟩⟩
    · cases hparam
  · obtain rfl := Option.some.inj hs
    rcases i with _ | i
    · obtain rfl := Option.some.inj hparam
      exact ⟨fun _ => rfl, fun _ => ⟨rfl, rfl⟩⟩
    · cases hparam

theorem plain_forwardProgram : forwardProgram.Plain where
  stores d n hn x value hstores := by
    obtain ⟨es, rfl⟩ | ⟨-, rfl⟩ | ⟨-, rfl⟩ | ⟨-, rfl⟩ | ⟨-, rfl⟩ | ⟨-, rfl⟩ :=
      mem_nodes_forwardProgram hn
    all_goals simp [Expr.stores, use] at hstores
  handed d n hn arg harg := by
    obtain ⟨es, rfl⟩ | ⟨-, rfl⟩ | ⟨-, rfl⟩ | ⟨-, rfl⟩ | ⟨-, rfl⟩ | ⟨-, rfl⟩ :=
      mem_nodes_forwardProgram hn
    · cases harg
    · cases harg
    · cases harg
    · cases harg
    · cases harg
    · have hhanded : forwardProgram.handed (.funcCall .absent [use "q" 1]
          (some (takesSlice "f" "p" 0))) = [(use "q" 1, (0, 0))] := rfl
      rw [hhanded] at harg
      obtain rfl := List.mem_singleton.mp harg
      rfl
  written d n hn place hplace := by
    obtain ⟨es, rfl⟩ | ⟨-, rfl⟩ | ⟨-, rfl⟩ | ⟨-, rfl⟩ | ⟨-, rfl⟩ | ⟨-, rfl⟩ :=
      mem_nodes_forwardProgram hn
    · cases hplace
    · cases hplace
    · cases hplace
    · cases hplace
    · obtain rfl := Option.some.inj hplace
      rfl
    · cases hplace
  receives d n hn arg harg := by
    obtain ⟨es, rfl⟩ | ⟨-, rfl⟩ | ⟨-, rfl⟩ | ⟨-, rfl⟩ | ⟨-, rfl⟩ | ⟨-, rfl⟩ :=
      mem_nodes_forwardProgram hn
    all_goals cases harg

end TurfLang.Slice
