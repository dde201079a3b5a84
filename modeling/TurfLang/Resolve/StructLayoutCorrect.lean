import TurfLang.Resolve.StructLayout

/-!
# Which structs the layout checks report

A search is decided by the graph of written heads alone, whatever the order it is run in. Where
names are apart, a cycle of written heads is one by value; the other way round, a cycle by value
may close through the arguments of several instantiations, and then no search sees the whole of
it.
-/

namespace TurfLang.StructLayout

open ColourSearch Relation TypeWalk
open Instantiate (SourceLocation instantiatedDeclName)

/-! ### Declarations by name -/

variable {decls : List StructDecl} {decl clone : StructDecl} {name : String}

theorem byName_eq_some (h : byName decls name = some decl) : decl ∈ decls ∧ decl.name = name := by
  refine ⟨List.mem_reverse.mp (List.mem_of_find?_eq_some h), ?_⟩
  simpa using List.find?_some h

theorem isSome_byName (h : decl ∈ decls) : (byName decls decl.name).isSome := by
  simp only [byName, List.find?_isSome, List.mem_reverse]
  exact ⟨decl, h, by simp⟩

theorem byName_of_nodup (hnodup : (decls.map (·.name)).Nodup) (h : decl ∈ decls) :
    byName decls decl.name = some decl := by
  obtain ⟨decl', h'⟩ := Option.isSome_iff_exists.mp (isSome_byName h)
  obtain ⟨hmem, hname⟩ := byName_eq_some h'
  rw [h', List.inj_on_of_nodup_map hnodup hmem h hname]

theorem byName_append (decls : List StructDecl) (clone : StructDecl) (name : String) :
    byName (decls ++ [clone]) name =
      if clone.name = name then some clone else byName decls name := by
  simp only [byName, List.reverse_append, List.reverse_cons, List.reverse_nil, List.nil_append,
    List.singleton_append, List.find?_cons]
  by_cases h : clone.name = name <;> simp [h]

theorem byName_map_resolve (decls : List StructDecl) (name : String) :
    byName (decls.map (·.resolve)) name = (byName decls name).map (·.resolve) := by
  simp only [byName, ← List.map_reverse, List.find?_map]
  rfl

/-! ### What the searches find -/

/-- A field of one struct is written with another as its head. -/
def LeadsTo (decls : List StructDecl) : String → String → Prop := Edge (edges (byName decls))

theorem leadsTo_iff {a b : String} : LeadsTo decls a b ↔ ∃ decl, byName decls a = some decl ∧
    ∃ field ∈ decl.fields, byValueEdgeTarget (byName decls) field.type = some b := by
  unfold LeadsTo Edge edges
  cases byName decls a with
  | none => simp
  | some decl => simp

/-- An edge leads to the head a type is written with, or to what has the name of the instantiation
it is written as. -/
theorem spelled_of_byValueEdgeTarget {known : KnownStructs} {t : TurfType}
    (h : byValueEdgeTarget known t = some name) : (known name).isSome ∧ ∃ base args,
      spelled t = some (base, args) ∧ (name = base ∨ name = instantiatedDeclName base args "") := by
  fun_induction byValueEdgeTarget known t with
  | case1 e _ ih => exact ih h
  | case2 base args mangled hmangled =>
    obtain rfl := Option.some.inj h
    exact ⟨hmangled, base, args, rfl, .inr rfl⟩
  | case3 base args mangled _ hbase =>
    obtain rfl := Option.some.inj h
    exact ⟨hbase, base, args, rfl, .inl rfl⟩
  | case5 name' hname =>
    obtain rfl := Option.some.inj h
    exact ⟨hname, name', [], rfl, .inl rfl⟩
  | case4 => cases h
  | case6 => cases h
  | case7 => cases h

theorem byValueEdgeTarget_of_spelled {known : KnownStructs} {t : TurfType} {base : String}
    {args : List TurfType} (h : spelled t = some (base, args)) (hbase : (known base).isSome)
    (hmangled : (known (instantiatedDeclName base args "")).isSome = false) :
    byValueEdgeTarget known t = some base := by
  fun_induction spelled t with
  | case1 e _ ih => exact ih h
  | case2 base' args' =>
    obtain ⟨rfl, rfl⟩ := Prod.mk.inj (Option.some.inj h)
    simp [byValueEdgeTarget, hmangled, hbase]
  | case3 name' =>
    obtain ⟨rfl, rfl⟩ := Prod.mk.inj (Option.some.inj h)
    simp [byValueEdgeTarget, hbase]
  | case4 => cases h

theorem mem_names_of_leadsTo {a b : String} (h : LeadsTo decls a b) : b ∈ decls.map (·.name) := by
  obtain ⟨decl, -, field, -, htarget⟩ := leadsTo_iff.mp h
  obtain ⟨decl', hb⟩ := Option.isSome_iff_exists.mp (spelled_of_byValueEdgeTarget htarget).1
  obtain ⟨hmem, rfl⟩ := byName_eq_some hb
  exact List.mem_map_of_mem hmem

/-- A check ends, and raises its error exactly if `P`. -/
structure Decides (check : Except LayoutStop Unit) (P : Prop) : Prop where
  ends : check ≠ .error .outOfFuel
  raises : Raises check ↔ P

theorem Decides.bind {check check' : Except LayoutStop Unit} {P Q : Prop} (h : Decides check P)
    (h' : Decides check' Q) : Decides (do check; check') (P ∨ Q) := by
  rw [← h.raises, ← h'.raises]
  cases check with
  | ok u =>
    have hne : ¬Raises (.ok u) := fun ⟨error, herror⟩ => by cases herror
    exact ⟨h'.ends, (or_iff_right hne).symm⟩
  | error stop =>
    cases stop with
    | outOfFuel => exact absurd rfl h.ends
    | cycle error =>
      have hraises : Raises (.error (.cycle error)) := ⟨error, rfl⟩
      exact ⟨h.ends, iff_of_true hraises (.inl hraises)⟩

theorem closed_names (decls : List StructDecl) : ∀ a ∈ (decls.map (·.name)).toFinset, ∀ b,
    LeadsTo decls a b → b ∈ (decls.map (·.name)).toFinset :=
  fun _ _ _ hab => List.mem_toFinset.mpr (mem_names_of_leadsTo hab)

theorem card_names_le (decls : List StructDecl) :
    (decls.map (·.name)).toFinset.card ≤ decls.length := by
  simpa using List.toFinset_card_le (decls.map (·.name))

theorem decides_detectStructLayoutCycles {starts : List String}
    (hstarts : ∀ name ∈ starts, name ∈ decls.map (·.name)) :
    Decides (detectStructLayoutCycles decls starts)
      (∃ name ∈ starts, Cyclic (LeadsTo decls) name) := by
  obtain ⟨hends, hraises⟩ := search_stops_iff (closed_names decls) (card_names_le decls)
    fun k hk => List.mem_toFinset.mpr (hstarts k hk)
  refine ⟨?_, .trans ?_ hraises⟩
  · unfold detectStructLayoutCycles
    split
    · simp
    · simp
    · exact fun _ => hends ‹_›
  · unfold detectStructLayoutCycles Raises
    split
    · simp_all
    · simp_all
    · exact absurd ‹_› hends

/-- The path in the error goes from the struct it is about back to it, along written heads. -/
theorem cyclePath_of_detectStructLayoutCycles {starts : List String}
    (hstarts : ∀ name ∈ starts, name ∈ decls.map (·.name)) {error : StructLayoutCycleError}
    (h : detectStructLayoutCycles decls starts = .error (.cycle error)) :
    error.cyclePath.IsChain (LeadsTo decls) ∧ error.cyclePath.head? = some error.structName ∧
      error.cyclePath.getLast? = some error.structName := by
  obtain ⟨round, hsearch, rfl⟩ : ∃ round, search (edges (byName decls)) decls.length starts
      (fun _ => none) = .error (.round round) ∧ error = cycleError (byName decls) round := by
    unfold detectStructLayoutCycles at h
    split at h
    · cases h
    · exact ⟨_, ‹_›, (by simpa using h : _ = error).symm⟩
    · cases h
  have hcloses := closes_of_search (closed_names decls) (card_names_le decls)
    (fun k hk => List.mem_toFinset.mpr (hstarts k hk)) hsearch
  obtain ⟨last, hlast, hedge⟩ := hcloses.closing
  have hlt : round.path.idxOf round.target < round.path.length :=
    List.idxOf_lt_length_of_mem hcloses.mem
  have hdrop : round.path.drop (round.path.idxOf round.target) =
      round.target :: round.path.drop (round.path.idxOf round.target + 1) := by
    rw [List.drop_eq_getElem_cons hlt, List.getElem_idxOf]
  refine ⟨?_, by simp [cycleError, hdrop], by simp [cycleError]⟩
  refine List.isChain_append.mpr ⟨hcloses.chain.drop _, List.isChain_singleton _, ?_⟩
  intro x hx y hy
  rw [List.getLast?_drop, if_neg (by omega), hlast] at hx
  obtain rfl : last = x := by simpa using hx
  obtain rfl : round.target = y := by simpa using hy
  exact ⟨_, hedge⟩

variable {p : Program} {requests : List (StructRequest p)}

/-- Some struct comes round along the heads as they are written: among the declarations, or from
a requested clone through them back to it. -/
def WrittenCycle (requests : List (StructRequest p)) : Prop :=
  (∃ decl ∈ p.hoisted, Cyclic (LeadsTo p.hoisted) decl.name) ∨
    ∃ r ∈ requests, Cyclic (LeadsTo (p.withClone r.clone)) r.clone.name

theorem decides_checkStructLayoutAcyclicity (p : Program) :
    Decides (checkStructLayoutAcyclicity p)
      (∃ decl ∈ p.hoisted, Cyclic (LeadsTo p.hoisted) decl.name) := by
  have h := @decides_detectStructLayoutCycles p.hoisted _ fun _ hname => hname
  simpa [checkStructLayoutAcyclicity] using h

theorem decides_drainStructRequests (requests : List (StructRequest p)) :
    Decides (drainStructRequests requests)
      (∃ r ∈ requests, Cyclic (LeadsTo (p.withClone r.clone)) r.clone.name) := by
  induction requests with
  | nil => exact ⟨by simp [drainStructRequests], by simp [Raises, drainStructRequests]⟩
  | cons r requests ih =>
    have hclone := @decides_detectStructLayoutCycles (p.withClone r.clone) [r.clone.name]
      (by simp [Program.withClone])
    have h := hclone.bind ih
    simpa [drainStructRequests, checkStructLayoutAcyclicityForClone] using h

/-- The checks raise the error exactly if some struct comes round along written heads. -/
theorem decides_layoutChecks (requests : List (StructRequest p)) :
    Decides (layoutChecks requests) (WrittenCycle requests) :=
  (decides_checkStructLayoutAcyclicity p).bind (decides_drainStructRequests requests)

theorem writtenCycle_of_perm {order : List (StructRequest p)} (h : order.Perm requests) :
    WrittenCycle order ↔ WrittenCycle requests := by
  unfold WrittenCycle
  simp only [h.mem_iff]

/-! ### Written heads and what they stand for -/

/-- The struct a type is written as is left in place by a substitution that does not replace it. -/
theorem spelled_substitute {s : SubstMap} {t : TurfType} {base : String} {args : List TurfType}
    (h : spelled t = some (base, args)) (hs : s.lookup base = none) :
    spelled (substitute (fun _ => false) s t) =
      some (base, substituteList (fun _ => false) s args) := by
  fun_induction spelled t with
  | case1 e _ ih => rw [substitute, spelled]; exact ih h
  | case2 base' args' =>
    obtain ⟨rfl, rfl⟩ := Prod.mk.inj (Option.some.inj h)
    rw [substitute, spelled]
  | case3 name =>
    obtain ⟨rfl, rfl⟩ := Prod.mk.inj (Option.some.inj h)
    simp [substitute, hs, spelled, substituteList]
  | case4 => cases h

/-- A field of a declaration, of one as it is resolved, or of a requested clone is written as this
instance, or as an array of it. -/
def Written (requests : List (StructRequest p)) (base : String) (args : List TurfType) : Prop :=
  ∃ decl ∈ p.hoisted ++ p.hoisted.map (·.resolve) ++ requests.map (·.clone),
    ∃ field ∈ decl.fields, spelled field.type = some (base, args)

/-- Names mean one thing: a struct, a type parameter or an instantiation. -/
structure NamesApart (requests : List (StructRequest p)) : Prop where
  declared : ((p.hoisted ++ p.locals).map (·.name)).Nodup
  params : ∀ decl ∈ p.hoisted, ∀ decl' ∈ p.hoisted, decl.name ∉ decl'.typeParams
  /-- No declaration is called like an instantiation. -/
  mangled : ∀ base args, Written requests base args → ∀ decl ∈ p.hoisted,
    decl.name ≠ instantiatedDeclName base args ""
  clones : ∀ r ∈ requests, ∀ decl ∈ p.hoisted, decl.name ≠ r.clone.name
  /-- No type is written with the name of an instantiation. -/
  heads : ∀ r ∈ requests, ∀ base args, Written requests base args → base ≠ r.clone.name
  /-- Of two instantiations, no one has the name of the other. -/
  instances : ∀ r ∈ requests, ∀ base args, Written requests base args →
    instantiatedDeclName base args "" = r.clone.name → base = r.declKey ∧ args = r.typeArgs
  /-- The arguments of a request are concrete. -/
  concrete : ∀ r ∈ requests, ∀ decl ∈ p.hoisted, ∀ args,
    ClosedList (fun _ => false) (decl.subst args) r.typeArgs

theorem lookup_eq_none {s : SubstMap} (h : name ∉ s.map Prod.fst) : s.lookup name = none := by
  rw [List.lookup_eq_none_iff]
  intro entry hentry
  have hne : name ≠ entry.1 := fun heq => h (heq ▸ List.mem_map_of_mem hentry)
  simpa using hne

theorem lookup_subst {typeArgs : List TurfType} (h : name ∉ decl.typeParams) :
    (decl.subst typeArgs).lookup name = none := by
  refine lookup_eq_none fun hmem => h ?_
  obtain ⟨entry, hentry, rfl⟩ := List.mem_map.mp hmem
  exact (List.of_mem_zip (List.mem_reverse.mp hentry)).1

/-- A head that a parameter of the declaration does not have stays when the declaration is
resolved. -/
theorem exists_resolved_field {field : StructField} (hfield : field ∈ decl.fields) {base : String}
    {args : List TurfType} (h : spelled field.type = some (base, args))
    (hbase : base ∉ decl.typeParams) : ∃ field' ∈ decl.resolve.fields, ∃ args',
      spelled field'.type = some (base, args') := by
  refine ⟨_, List.mem_map_of_mem hfield, _, spelled_substitute h (lookup_eq_none ?_)⟩
  simpa [Function.comp_def] using hbase

theorem StructRequest.exists_decl (r : StructRequest p) :
    ∃ decl ∈ p.hoisted, decl.name = r.declKey ∧ r.template = decl.resolve := by
  obtain ⟨hmem, hname⟩ := byName_eq_some r.found
  obtain ⟨decl, hdecl, hresolve⟩ := List.mem_map.mp hmem
  exact ⟨decl, List.mem_of_mem_filter hdecl, by rw [← hname, ← hresolve]; rfl, hresolve.symm⟩

theorem mem_instances_of_hoisted (h : decl ∈ p.hoisted) :
    (decl.name, []) ∈ instances requests :=
  List.mem_append_left _ (List.mem_map.mpr ⟨decl, List.mem_append_left _ h, rfl⟩)

theorem mem_instances_of_request {r : StructRequest p} (h : r ∈ requests) :
    (r.declKey, r.typeArgs) ∈ instances requests :=
  List.mem_append_right _ (List.mem_map_of_mem h)

section NamesApart

variable (apart : NamesApart requests)

include apart

theorem NamesApart.byName_hoisted (h : decl ∈ p.hoisted) :
    byName p.hoisted decl.name = some decl := by
  refine byName_of_nodup ?_ h
  have := apart.declared
  rw [List.map_append] at this
  exact this.of_append_left

theorem NamesApart.declared_hoisted (h : decl ∈ p.hoisted) :
    p.declared decl.name = some decl.resolve := by
  rw [Program.declared, byName_map_resolve,
    byName_of_nodup apart.declared (List.mem_append_left _ h), Option.map_some]

theorem NamesApart.fieldTypes_hoisted (h : decl ∈ p.hoisted) (typeArgs : List TurfType) :
    p.fieldTypes (decl.name, typeArgs) =
      decl.resolve.fields.map fun field =>
        substitute (fun _ => false) (decl.subst typeArgs) field.type := by
  simp only [Program.fieldTypes, apart.declared_hoisted h, substituteFields, List.map_map]
  rfl

theorem NamesApart.fieldTypes_request (r : StructRequest p) :
    p.fieldTypes (r.declKey, r.typeArgs) = r.clone.fields.map (·.type) := by
  obtain ⟨decl, hdecl, hname, htemplate⟩ := r.exists_decl
  rw [← hname, apart.fieldTypes_hoisted hdecl, StructRequest.clone, htemplate, substituteFields,
    List.map_map]
  rfl

/-- A field of a resolved declaration that is written with the head of a declaration holds an
instance of it, whatever the arguments are. -/
theorem NamesApart.holds_of_resolved {target : StructDecl} {field : StructField}
    {args : List TurfType} (hdecl : decl ∈ p.hoisted) (htarget : target ∈ p.hoisted)
    (hfield : field ∈ decl.resolve.fields) (h : spelled field.type = some (target.name, args))
    (typeArgs : List TurfType) : p.Holds (decl.name, typeArgs)
      (target.name, substituteList (fun _ => false) (decl.subst typeArgs) args) := by
  refine ⟨by rw [apart.declared_hoisted htarget]; rfl, _, ?_,
    spelled_substitute h (lookup_subst (apart.params target htarget decl hdecl))⟩
  rw [apart.fieldTypes_hoisted hdecl]
  exact List.mem_map_of_mem hfield

/-- What has a layout does not come round among the declarations. -/
theorem NamesApart.acc_hoisted {x : Instance} (hx : p.HasLayout x) (hdecl : decl ∈ p.hoisted)
    (hname : decl.name = x.1) : Acc (fun b a => LeadsTo p.hoisted a b) decl.name := by
  induction hx generalizing decl with
  | intro x _ ih =>
    refine ⟨_, fun target hlead => ?_⟩
    obtain ⟨_, hdecl', field, hfield, hedge⟩ := leadsTo_iff.mp hlead
    obtain rfl := Option.some.inj ((apart.byName_hoisted hdecl).symm.trans hdecl')
    obtain ⟨hknown, base, args, hspelled, hbase⟩ := spelled_of_byValueEdgeTarget hedge
    obtain ⟨targetDecl, htarget⟩ := Option.isSome_iff_exists.mp hknown
    obtain ⟨htargetMem, rfl⟩ := byName_eq_some htarget
    have hwritten : Written requests base args :=
      ⟨decl, by simp [hdecl], field, hfield, hspelled⟩
    rcases hbase with rfl | hmangled
    · obtain ⟨field', hfield', args', hspelled'⟩ :=
        exists_resolved_field hfield hspelled (apart.params _ htargetMem _ hdecl)
      have hholds := apart.holds_of_resolved hdecl htargetMem hfield' hspelled' x.2
      rw [hname] at hholds
      exact ih _ hholds htargetMem rfl
    · exact absurd hmangled (apart.mangled base args hwritten targetDecl htargetMem)

/-- Among the declarations and a clone, a written head is a declaration's, or it is the instance
the clone was made for. -/
theorem NamesApart.target_withClone {r : StructRequest p} (hr : r ∈ requests) {t : TurfType}
    {target base : String} {args : List TurfType} (hwritten : Written requests base args)
    (hspelled : spelled t = some (base, args))
    (h : byValueEdgeTarget (byName (p.withClone r.clone)) t = some target) :
    (∃ decl ∈ p.hoisted, decl.name = base ∧ target = base) ∨
      target = r.clone.name ∧ base = r.declKey ∧ args = r.typeArgs := by
  obtain ⟨hknown, base', args', hspelled', htarget⟩ := spelled_of_byValueEdgeTarget h
  obtain ⟨rfl, rfl⟩ := Prod.mk.inj (Option.some.inj (hspelled.symm.trans hspelled'))
  rw [Program.withClone, byName_append, byName_map_resolve] at hknown
  by_cases hclone : r.clone.name = target
  · rcases htarget with rfl | hmangled
    · exact absurd hclone.symm (apart.heads r hr _ _ hwritten)
    · exact .inr ⟨hclone.symm, apart.instances r hr _ _ hwritten (hmangled.symm.trans hclone.symm)⟩
  · rw [if_neg hclone, Option.isSome_map, Option.isSome_iff_exists] at hknown
    obtain ⟨decl, hdecl⟩ := hknown
    obtain ⟨hmem, hname⟩ := byName_eq_some hdecl
    rcases htarget with rfl | hmangled
    · exact .inl ⟨decl, hmem, hname, rfl⟩
    · exact absurd (hname.trans hmangled) (apart.mangled _ _ hwritten decl hmem)

/-- What has a layout does not come round through its own clone. -/
theorem NamesApart.acc_withClone {r : StructRequest p} (hr : r ∈ requests) {x : Instance}
    (hx : p.HasLayout x) {name : String}
    (hname : name = r.clone.name ∧ x = (r.declKey, r.typeArgs) ∨
      ∃ decl ∈ p.hoisted, decl.name = name ∧ x.1 = name) :
    Acc (fun b a => LeadsTo (p.withClone r.clone) a b) name := by
  obtain ⟨keyDecl, hkeyDecl, hkey, -⟩ := r.exists_decl
  induction hx generalizing name with
  | intro x _ ih =>
    refine ⟨_, fun target hlead => ?_⟩
    obtain ⟨source, hsource, field, hfield, hedge⟩ := leadsTo_iff.mp hlead
    obtain ⟨-, base, args, hspelled, -⟩ := spelled_of_byValueEdgeTarget hedge
    rw [Program.withClone, byName_append, byName_map_resolve] at hsource
    rcases hname with ⟨rfl, rfl⟩ | ⟨decl, hdecl, rfl, hx⟩
    · rw [if_pos rfl] at hsource
      obtain rfl := Option.some.inj hsource
      have hwritten : Written requests base args :=
        ⟨r.clone, List.mem_append_right _ (List.mem_map_of_mem hr), field, hfield, hspelled⟩
      have htype : field.type ∈ p.fieldTypes (r.declKey, r.typeArgs) := by
        rw [apart.fieldTypes_request]
        exact List.mem_map_of_mem hfield
      rcases apart.target_withClone hr hwritten hspelled hedge with
        ⟨decl, hdecl, rfl, rfl⟩ | ⟨rfl, rfl, rfl⟩
      · exact ih (decl.name, args) ⟨by rw [apart.declared_hoisted hdecl]; rfl, _, htype, hspelled⟩
          (.inr ⟨decl, hdecl, rfl, rfl⟩)
      · exact ih (r.declKey, r.typeArgs)
          ⟨by rw [← hkey, apart.declared_hoisted hkeyDecl]; rfl, _, htype, hspelled⟩
          (.inl ⟨rfl, rfl⟩)
    · rw [if_neg (apart.clones r hr decl hdecl).symm, apart.byName_hoisted hdecl] at hsource
      obtain rfl := Option.some.inj hsource
      have hwritten : Written requests base args := ⟨decl.resolve,
        List.mem_append_left _ (List.mem_append_right _ (List.mem_map_of_mem hdecl)),
        field, hfield, hspelled⟩
      rcases apart.target_withClone hr hwritten hspelled hedge with
        ⟨target, htarget, rfl, rfl⟩ | ⟨rfl, rfl, rfl⟩
      · have hholds := apart.holds_of_resolved hdecl htarget hfield hspelled x.2
        rw [← hx] at hholds
        exact ih _ hholds (.inr ⟨target, htarget, rfl, rfl⟩)
      · rw [← hkey] at hspelled
        have hholds := apart.holds_of_resolved hdecl hkeyDecl hfield hspelled x.2
        rw [← hx, substituteList_of_closed (apart.concrete r hr decl hdecl x.2), hkey] at hholds
        exact ih _ hholds (.inl ⟨rfl, rfl⟩)

/-- Where names are apart, only what contains itself by value is reported. -/
theorem NamesApart.unlayoutable_of_writtenCycle (h : WrittenCycle requests) :
    Unlayoutable requests := by
  rcases h with ⟨decl, hdecl, hcyclic⟩ | ⟨r, hr, hcyclic⟩
  · refine ⟨(decl.name, []), mem_instances_of_hoisted hdecl, fun hlayout => ?_⟩
    exact hcyclic.not_acc (apart.acc_hoisted hlayout hdecl rfl)
  · refine ⟨(r.declKey, r.typeArgs), mem_instances_of_request hr, fun hlayout => ?_⟩
    exact hcyclic.not_acc (apart.acc_withClone hr hlayout (.inl ⟨rfl, rfl⟩))

end NamesApart

/-! ### Structs that hold no parameter -/

/-- A type is one of these parameters, or an array of them. -/
def isParam (typeParams : List String) : TurfType → Bool
  | .array e _ => isParam typeParams e
  | .named name | .genericParam name => typeParams.contains name
  | _ => false

/-- A substitution of parameters keeps the head of a type that is none of them. -/
theorem spelled_of_substitute {s : SubstMap} {typeParams : List String}
    (hs : ∀ name ∉ typeParams, s.lookup name = none) {t : TurfType}
    (ht : isParam typeParams t = false) :
    isParam typeParams (substitute (fun _ => false) s t) = false ∧
      (spelled (substitute (fun _ => false) s t)).map Prod.fst = (spelled t).map Prod.fst := by
  fun_induction isParam typeParams t with
  | case1 e size ih => exact ih ht
  | case2 name =>
    have hnone : s.lookup name = none := hs name (by simpa using ht)
    simpa [substitute, hnone, isParam, spelled] using ht
  | case3 name =>
    have hnone : s.lookup name = none := hs name (by simpa using ht)
    simpa [substitute, hnone, isParam, spelled] using ht
  | case4 t => cases t <;> simp_all [substitute, isParam, spelled]

/-- No field of a hoisted struct is one of its parameters, or an array of them. -/
def NoFieldIsParam (p : Program) : Prop :=
  ∀ decl ∈ p.hoisted, ∀ field ∈ decl.fields, isParam decl.typeParams field.type = false

theorem NamesApart.leadsTo_of_holds (apart : NamesApart requests) (hlocals : p.locals = [])
    (hparam : NoFieldIsParam p) (hdecl : decl ∈ p.hoisted) {typeArgs : List TurfType} {y : Instance}
    (h : p.Holds (decl.name, typeArgs) y) :
    ∃ target ∈ p.hoisted, target.name = y.1 ∧ LeadsTo p.hoisted decl.name target.name := by
  obtain ⟨hdeclared, t, ht, hspelled⟩ := h
  rw [Program.declared, hlocals, List.append_nil, byName_map_resolve, Option.isSome_map,
    Option.isSome_iff_exists] at hdeclared
  obtain ⟨target, htarget⟩ := hdeclared
  obtain ⟨hmem, hname⟩ := byName_eq_some htarget
  rw [apart.fieldTypes_hoisted hdecl] at ht
  obtain ⟨field', hfield', rfl⟩ := List.mem_map.mp ht
  obtain ⟨field, hfield, rfl⟩ := List.mem_map.mp hfield'
  -- neither the resolution nor the arguments touch the head
  obtain ⟨hresolved, hhead⟩ := spelled_of_substitute
    (s := decl.typeParams.map fun T => (T, .genericParam T))
    (fun name hname => lookup_eq_none (by simpa [Function.comp_def] using hname))
    (hparam decl hdecl field hfield)
  obtain ⟨-, hhead'⟩ := spelled_of_substitute (s := decl.subst typeArgs)
    (fun name hname => lookup_subst hname) hresolved
  rw [hspelled, hhead] at hhead'
  obtain ⟨⟨base, args⟩, hbase, rfl⟩ := Option.map_eq_some_iff.mp hhead'.symm
  have hmangled : (byName p.hoisted (instantiatedDeclName y.1 args "")).isSome = false := by
    rw [Option.isSome_eq_false_iff, Option.isNone_iff_eq_none]
    by_contra hne
    obtain ⟨other, hother⟩ := Option.ne_none_iff_exists'.mp hne
    obtain ⟨hother, hname⟩ := byName_eq_some hother
    exact apart.mangled _ _ ⟨decl, by simp [hdecl], field, hfield, hbase⟩ other hother hname
  refine ⟨target, hmem, hname,
    leadsTo_iff.mpr ⟨decl, apart.byName_hoisted hdecl, field, hfield, ?_⟩⟩
  rw [byValueEdgeTarget_of_spelled hbase (by rw [htarget]; rfl) hmangled, hname]

/-- What does not come round among finitely many declarations comes to an end. -/
theorem acc_of_not_cyclic (hname : name ∈ decls.map (·.name)) (h : ¬Cyclic (LeadsTo decls) name) :
    Acc (fun b a => LeadsTo decls a b) name := by
  refine Descent.acc_of_acyclic ?_ fun b hb hcycle => h ⟨b, hb, hcycle⟩
  refine (List.finite_toSet (decls.map (·.name))).subset fun b hb => ?_
  rcases ReflTransGen.cases_tail hb with rfl | ⟨c, -, hcb⟩
  · exact hname
  · exact mem_names_of_leadsTo hcb

theorem NamesApart.hasLayout_of_acc (apart : NamesApart requests) (hlocals : p.locals = [])
    (hparam : NoFieldIsParam p) (hacc : Acc (fun b a => LeadsTo p.hoisted a b) name)
    (hdecl : decl ∈ p.hoisted) (hname : decl.name = name) (typeArgs : List TurfType) :
    p.HasLayout (decl.name, typeArgs) := by
  induction hacc generalizing decl typeArgs with
  | intro name _ ih =>
    subst hname
    refine ⟨_, fun y hholds => ?_⟩
    obtain ⟨target, htarget, hy, hlead⟩ := apart.leadsTo_of_holds hlocals hparam hdecl hholds
    have hlayout := ih target.name hlead htarget rfl y.2
    rwa [hy] at hlayout

/-- Where no struct holds a parameter, what contains itself comes round along written heads. -/
theorem NamesApart.writtenCycle_of_unlayoutable (apart : NamesApart requests)
    (hlocals : p.locals = []) (hparam : NoFieldIsParam p) (h : Unlayoutable requests) :
    WrittenCycle requests := by
  obtain ⟨x, hx, hlayout⟩ := h
  have hdecl : ∃ decl ∈ p.hoisted, decl.name = x.1 := by
    rw [StructLayout.instances, hlocals, List.append_nil] at hx
    rcases List.mem_append.mp hx with hx | hx
    · obtain ⟨decl, hdecl, rfl⟩ := List.mem_map.mp hx
      exact ⟨decl, hdecl, rfl⟩
    · obtain ⟨r, -, rfl⟩ := List.mem_map.mp hx
      obtain ⟨decl, hdecl, hname, -⟩ := r.exists_decl
      exact ⟨decl, hdecl, hname⟩
  obtain ⟨decl, hdecl, hname⟩ := hdecl
  refine .inl ⟨decl, hdecl, ?_⟩
  by_contra hcyclic
  have hacc := acc_of_not_cyclic (List.mem_map_of_mem hdecl) hcyclic
  have := apart.hasLayout_of_acc hlocals hparam hacc hdecl rfl x.2
  rw [hname] at this
  exact hlayout this

/-! ### When the claim holds -/

/-- The checks report exactly what contains itself by value when it comes round along written heads
and nothing else does. Where names are apart nothing else does, and where moreover no struct holds
a parameter of its own, everything that contains itself comes round. -/
theorem reportsExactly_iff_writtenCycle (requests : List (StructRequest p)) :
    (ReportsExactly requests ↔ (WrittenCycle requests ↔ Unlayoutable requests)) ∧
      (NamesApart requests →
        (ReportsExactly requests ↔ (Unlayoutable requests → WrittenCycle requests)) ∧
        (p.locals = [] → NoFieldIsParam p → ReportsExactly requests)) := by
  have hiff : ReportsExactly requests ↔ (WrittenCycle requests ↔ Unlayoutable requests) := by
    constructor
    · intro h
      rw [← (h requests (.refl _)).2, (decides_layoutChecks requests).raises]
    · intro h order horder
      obtain ⟨hends, hraises⟩ := decides_layoutChecks order
      exact ⟨hends, by rw [hraises, writtenCycle_of_perm horder, h]⟩
  refine ⟨hiff, fun apart => ?_⟩
  have happart : ReportsExactly requests ↔ (Unlayoutable requests → WrittenCycle requests) :=
    hiff.trans ⟨fun h => h.mpr, fun h => ⟨apart.unlayoutable_of_writtenCycle, h⟩⟩
  exact ⟨happart, fun hlocals hparam =>
    happart.mpr (apart.writtenCycle_of_unlayoutable hlocals hparam)⟩

/-- `struct A<T> { val: T }  struct B { back: A<B> }`. -/
def backProgram : Program where
  hoisted := [
    { name := "A", typeParams := ["T"], fields := [{ name := "val", type := .named "T" }] },
    { name := "B", fields := [{ name := "back", type := .generic "A" [.named "B"] }] }]

/-- `A<B>`. -/
def backRequests : List (StructRequest backProgram) := [⟨"A", [.named "B"], _, rfl⟩]

/-- The heads that are written, in the declarations and the clone. -/
theorem written_backRequests {base : String} {args : List TurfType}
    (h : Written backRequests base args) :
    base = "T" ∧ args = [] ∨ base = "A" ∧ args = [.named "B"] ∨ base = "B" ∧ args = [] := by
  obtain ⟨decl, hdecl, field, hfield, hspelled⟩ := h
  have hfields : ∀ decl ∈ backProgram.hoisted ++ backProgram.hoisted.map (·.resolve) ++
      backRequests.map (·.clone), ∀ field ∈ decl.fields, spelled field.type = none ∨
        spelled field.type = some ("T", []) ∨ spelled field.type = some ("A", [.named "B"]) ∨
          spelled field.type = some ("B", []) := by
    intro decl hdecl field hfield
    fin_cases hdecl <;> fin_cases hfield
    · exact .inr (.inl rfl)
    · exact .inr (.inr (.inl rfl))
    · exact .inl rfl
    · exact .inr (.inr (.inl rfl))
    · exact .inr (.inr (.inr rfl))
  have := hfields decl hdecl field hfield
  rw [hspelled] at this
  simpa using this

theorem namesApart_backRequests : NamesApart backRequests where
  declared := by decide
  params := by decide
  mangled base args h := by
    rcases written_backRequests h with ⟨rfl, rfl⟩ | ⟨rfl, rfl⟩ | ⟨rfl, rfl⟩ <;> decide
  clones := by decide
  heads r hr base args h := by
    obtain rfl := List.mem_singleton.mp hr
    rcases written_backRequests h with ⟨rfl, rfl⟩ | ⟨rfl, rfl⟩ | ⟨rfl, rfl⟩ <;> decide
  instances r hr base args h hname := by
    obtain rfl := List.mem_singleton.mp hr
    rcases written_backRequests h with ⟨rfl, rfl⟩ | ⟨rfl, rfl⟩ | ⟨rfl, rfl⟩
    · exact absurd hname (by decide)
    · exact ⟨rfl, rfl⟩
    · exact absurd hname (by decide)
  concrete r hr decl hdecl args := by
    obtain rfl := List.mem_singleton.mp hr
    have hparam : "B" ∉ decl.typeParams := by
      fin_cases hdecl <;> decide
    exact ⟨.inr (lookup_subst hparam), trivial⟩

/-- Here the search for the clone sees the cycle. -/
theorem reportsExactly_backRequests : ReportsExactly backRequests := by
  refine ((reportsExactly_iff_writtenCycle backRequests).2
    namesApart_backRequests).1.mpr fun _ => ?_
  rw [← (decides_layoutChecks backRequests).raises]
  exact ⟨_, rfl⟩

/-! ### A cycle through two instantiations -/

/-- `struct Box<T> { v: T }  struct Wrap<T> { w: T }  struct Node { b: Box<Wrap<Node>> }`. -/
def nodeProgram : Program where
  hoisted := [
    { name := "Box", typeParams := ["T"], fields := [{ name := "v", type := .named "T" }] },
    { name := "Wrap", typeParams := ["T"], fields := [{ name := "w", type := .named "T" }] },
    { name := "Node",
      fields := [{ name := "b", type := .generic "Box" [.generic "Wrap" [.named "Node"]] }] }]

/-- `Box<Wrap<Node>>` and `Wrap<Node>`. -/
def nodeRequests : List (StructRequest nodeProgram) :=
  [⟨"Box", [.generic "Wrap" [.named "Node"]], _, rfl⟩, ⟨"Wrap", [.named "Node"], _, rfl⟩]

theorem not_reportsExactly_nodeRequests :
    layoutChecks nodeRequests = .ok () ∧
      TransGen nodeProgram.Holds ("Node", []) ("Node", []) ∧ ¬ReportsExactly nodeRequests := by
  have hok : layoutChecks nodeRequests = .ok () := rfl
  have hcycle : TransGen nodeProgram.Holds ("Node", []) ("Node", []) := by
    refine .head (b := ("Box", [.generic "Wrap" [.named "Node"]])) ⟨rfl, _, .head _, rfl⟩ ?_
    refine .head (b := ("Wrap", [.named "Node"])) ⟨rfl, _, .head _, rfl⟩ ?_
    exact .single ⟨rfl, _, .head _, rfl⟩
  refine ⟨hok, hcycle, fun h => ?_⟩
  obtain ⟨error, herror⟩ := (h nodeRequests (.refl _)).2.mpr
    ⟨("Node", []), by simp [StructLayout.instances, nodeProgram], not_acc_of_cycle hcycle⟩
  cases hok.symm.trans herror

end TurfLang.StructLayout
