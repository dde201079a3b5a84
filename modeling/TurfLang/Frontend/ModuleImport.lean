import TurfLang.Frontend.PackageGraph

/-!
# Which file an import names

Every file that `import m;` could name in the importing file is collected, and exactly one must
be left: more than one is an ambiguity, never a precedence. In a package build the candidates
come from the graph. A package sees only its graph exactly when no file in its source tree that
belongs to another package is alone in having its name.
-/

namespace TurfLang

namespace PackageGraph

open FileTree

variable (G : PackageGraph) (tree : FileTree)

/-! ### Candidates -/

inductive ModuleRootKind
  | stdlib
  | installed
  | sibling
  | cwd
  | ownModule
  | dependency
  deriving DecidableEq

structure ModuleCandidate where
  kind : ModuleRootKind
  path : String
  /-- The module's identity; empty for the spelled name. -/
  key : String := ""
  package : String := ""
  deriving DecidableEq

/-- `<package>/<path under src/ without .tr>`. -/
def dependencyModuleKey (D : PackageInfo) (path : String) : String :=
  let rel := (tree.canonicalOrOriginal path).toList.drop (D.srcRoot.toList.length + 1)
  let rel := if 3 < rel.length ∧ rel.drop (rel.length - 3) = ['.', 't', 'r'] then
    rel.take (rel.length - 3) else rel
  D.name ++ "/" ++ String.ofList (rel.map fun c => if c = '\\' then '/' else c)

def isTestHelperName (m : String) : Bool := "_module".toList.isSuffixOf m.toList

/-- The files of the package's own that `m` could name: those under `src/`, and in a file of the
root's `tests/` the helpers there. -/
def ownFiles (file : String) (P : PackageInfo) (m : String) : List String :=
  tree.indexPackageSources P.srcRoot m ++
    if P.name = G.root ∧ G.inTests tree file ∧ isTestHelperName m then
      tree.indexPackageSources P.testsRoot m
    else []

/-- The identity of an own module: the test helpers are the root's. -/
def ownKey (P : PackageInfo) (path : String) : String :=
  if P.name = G.root then "" else dependencyModuleKey tree P path

def ownCandidates (file : String) (P : PackageInfo) (m : String) : List ModuleCandidate :=
  (G.ownFiles tree file P m).map fun path =>
    ⟨.ownModule, path, G.ownKey tree P path, P.name⟩

def dependencyCandidate (D : PackageInfo) (m : String) : ModuleCandidate :=
  ⟨.dependency, rootModule D m, dependencyModuleKey tree D (rootModule D m), D.name⟩

/-- `none` is the dereference of a dependency that the graph does not have. -/
def collectPackageModuleCandidates (m : String) (P : PackageInfo) (file : String) :
    Option (List ModuleCandidate) :=
  let found := (tree.indexModuleDir "std" m).toList.map (fun path => ⟨.stdlib, path, "", ""⟩) ++
    G.ownCandidates tree file P m
  if m ∈ P.deps then
    (G.find m).map fun D => found ++ [dependencyCandidate tree D m]
  else some found

/-- `Add`: a file never imports itself, and one file is one candidate however it is spelled. -/
def add (file : String) (found : List ModuleCandidate) (kind : ModuleRootKind) (path : String) :
    List ModuleCandidate :=
  if file ≠ "" ∧ tree.equivalent path file then found
  else if found.any fun c => tree.canonicalOrOriginal c.path = tree.canonicalOrOriginal path then
    found
  else found ++ [⟨kind, path, "", ""⟩]

/-- Adding what an index or a directory has of the name, if anything. -/
def addAll (file : String) (kind : ModuleRootKind) (path : Option String)
    (found : List ModuleCandidate) : List ModuleCandidate :=
  path.toList.foldl (fun found path => add tree file found kind path) found

def regular (path : String) : Option String := if tree.isRegularFile path then some path else none

def collectModuleCandidates (m file : String) (stdlibOnly : Bool) :
    Option (List ModuleCandidate) :=
  let std := addAll tree file .stdlib (tree.indexModuleDir "std" m) []
  if G.active && !stdlibOnly then
    match G.packageOf tree file with
    | some P => G.collectPackageModuleCandidates tree m P file
    -- An importer in no package gets the standard library and nothing ambient.
    | none => some std
  else if stdlibOnly then some std
  else
    let installed := addAll tree file .installed (tree.indexModuleDir "usr" m) std
    let sibling := if file = "" then installed else
      addAll tree file .sibling
        (regular tree (Path.append (Path.removeFilename file) (m ++ ".tr"))) installed
    some (addAll tree file .cwd (regular tree (m ++ ".tr")) sibling)

/-! ### Imports -/

inductive ImportError
  /-- The dereference of a dependency that the graph does not have. -/
  | nullDependency
  | notADirectDependency (importer package : String) (requirers : List String)
  | internalModule (m importer package shown : String)
  | inPackage (m package : String)
  | notFound (m : String)
  | ambiguous (m : String) (candidates : List ModuleCandidate)
  deriving DecidableEq

/-- The module exists somewhere in the graph, but out of the reach of `P`. -/
def explainUnreachableModule (m : String) (P : PackageInfo) : Option ImportError :=
  match G.find m with
  | some Q => some (.notADirectDependency P.name Q.name
      ((G.packages.filter fun other => m ∈ other.deps).map PackageInfo.name))
  | none =>
    (G.packages.filter fun Q => Q.name ≠ P.name).findSome? fun Q =>
      (tree.indexPackageSources Q.srcRoot m).head?.map fun path =>
        .internalModule m P.name Q.name (tree.canonicalOrOriginal path)

def notFoundError (m file : String) (stdlibOnly : Bool) : ImportError :=
  if G.active && !stdlibOnly then
    match G.packageOf tree file with
    | some P => (G.explainUnreachableModule tree m P).getD (.inPackage m P.name)
    | none => .notFound m
  else .notFound m

/-- The file that `import m;` names, up to where it is parsed. -/
def importModule (m file : String) (stdlibOnly : Bool) : Except ImportError ModuleCandidate :=
  match G.collectModuleCandidates tree m file
      (stdlibOnly || tree.isLibStdWarningLocation file) with
  | none => .error .nullDependency
  | some [] => .error (G.notFoundError tree m file stdlibOnly)
  | some [c] => .ok c
  | some cs => .error (.ambiguous m cs)

/-! ### The raw-pointer capability -/

/-- The start of a file: what `unsafe module;` leaves in `UnsafeModuleFiles`. -/
def parseLeadingUnsafeModuleDecl (files : List String) (file : String) : List String :=
  if tree.unsafeModule (tree.canonicalOrOriginal file) then
    tree.canonicalOrOriginal file :: files
  else files

/-- `UnsafeModuleFiles` after the starts of some files. -/
def unsafeModuleFiles (parsed : List String) : List String :=
  parsed.foldl (parseLeadingUnsafeModuleDecl tree) []

def hasRawPointerCapability (allowUnsafeModules : Bool) (files : List String) (path : String) :
    Bool :=
  if path = "" ∨ tree.canonicalOrOriginal path ∉ files then false
  else if tree.isPathUnderInstallRoot path then true
  else if G.active then
    match G.packageOf tree path with
    | some P => P.allowUnsafe
    | none => false
  else allowUnsafeModules

/-! ### What a package may see -/

variable {G tree}

/-- The files that `m` may name in a file of `P`: the standard library's, the package's own, the
helpers of the root's tests in a test, the root modules of direct dependencies. An import inside
the standard library names its modules only. -/
@[mk_iff]
inductive Importable (G : PackageGraph) (tree : FileTree) (file : String) (P : PackageInfo)
    (m : String) : String → Prop
  | stdlib {f : String} (h : f ∈ tree.modulesNamed (tree.libDir "std") m) :
      Importable G tree file P m f
  | own {f : String} (hfile : tree.isLibStdWarningLocation file = false)
      (h : f ∈ G.ownFiles tree file P m) (howner : G.packageOf tree f = some P) :
      Importable G tree file P m f
  | dependency {D : PackageInfo} (hfile : tree.isLibStdWarningLocation file = false)
      (h : m ∈ P.deps) (hfind : G.find m = some D) : Importable G tree file P m (rootModule D m)

/-- A package sees only its graph. -/
structure SeesOnlyGraph (G : PackageGraph) (tree : FileTree) : Prop where
  /-- An import resolves to a file that it may name. -/
  only : ∀ file P, G.packageOf tree file = some P →
    ∀ m c, G.importModule tree m file false = .ok c → Importable G tree file P m c.path
  /-- And where it may name more than one file, it does not resolve. -/
  one : ∀ file P, G.packageOf tree file = some P →
    ∀ m c, G.importModule tree m file false = .ok c →
      ∀ f, Importable G tree file P m f → tree.realPath f = tree.realPath c.path
  /-- Outside the installation the capability is declared and allowed. -/
  capability : ∀ allowUnsafeModules parsed, ∀ file ∈ parsed,
    tree.isPathUnderInstallRoot file = false →
      (G.hasRawPointerCapability tree allowUnsafeModules (unsafeModuleFiles tree parsed) file ↔
        tree.unsafeModule (tree.canonicalOrOriginal file) ∧
          ∃ P, G.packageOf tree file = some P ∧ P.allowUnsafe)

/-- No file of another package is alone in having its name in the source tree of a package, and
no two files of the standard library have one name. -/
structure SourcesApart (G : PackageGraph) (tree : FileTree) : Prop where
  own : ∀ file P, G.packageOf tree file = some P → tree.isLibStdWarningLocation file = false →
    ∀ m, ∀ f ∈ G.ownFiles tree file P m, G.packageOf tree f = some P ∨
      tree.isStdlibModuleName m ∨ m ∈ P.deps ∨ 1 < (G.ownFiles tree file P m).length
  stdlib : ∀ file P, G.packageOf tree file = some P → tree.isLibStdWarningLocation file = false →
    ∀ m f, G.ownFiles tree file P m = [] → tree.indexModuleDir "std" m = some f →
      ∀ g ∈ tree.modulesNamed (tree.libDir "std") m, tree.realPath g = tree.realPath f
  inStdlib : ∀ file P, G.packageOf tree file = some P → tree.isLibStdWarningLocation file = true →
    ∀ m f, tree.equivalent f file = false → tree.indexModuleDir "std" m = some f →
      ∀ g ∈ tree.modulesNamed (tree.libDir "std") m, tree.realPath g = tree.realPath f

/-! ### One import -/

theorem addAll_stdlib {file : String} (hfile : file ≠ "") (path : Option String) :
    addAll tree file .stdlib path [] =
      (path.toList.filter fun f => tree.equivalent f file = false).map
        fun f => ⟨.stdlib, f, "", ""⟩ := by
  cases path with
  | none => rfl
  | some f =>
    cases h : tree.equivalent f file with
    | true => simp [addAll, add, h, hfile]
    | false => simp [addAll, add, h]

theorem packageOf_empty : G.packageOf tree "" = none := by
  simp [packageOf]

/-- Inside the standard library an import names its modules only, and never the file itself. -/
theorem importModule_of_libStd {file m : String} {c : ModuleCandidate} (hne : file ≠ "")
    (hfile : tree.isLibStdWarningLocation file = true) :
    G.importModule tree m file false = .ok c ↔ ∃ f, tree.indexModuleDir "std" m = some f ∧
      tree.equivalent f file = false ∧ c = ⟨.stdlib, f, "", ""⟩ := by
  have hcollect : G.collectModuleCandidates tree m file true =
      some (addAll tree file .stdlib (tree.indexModuleDir "std" m) []) := by
    simp [collectModuleCandidates]
  rw [importModule, hfile, Bool.false_or, hcollect, addAll_stdlib hne]
  cases hindex : tree.indexModuleDir "std" m with
  | none => simp
  | some f =>
    cases heq : tree.equivalent f file with
    | true => simp [heq]
    | false =>
      simp only [Option.toList_some, heq, decide_true, List.filter_cons_of_pos, List.filter_nil,
        List.map_cons, List.map_nil]
      constructor
      · intro h
        exact ⟨f, rfl, heq, (Except.ok.inj h).symm⟩
      · rintro ⟨g, hg, -, rfl⟩
        cases hg
        rfl

/-- Elsewhere exactly one of the three places has the name. -/
theorem importModule_of_package {file m : String} {P : PackageInfo} {c : ModuleCandidate}
    (hvalid : G.Valid tree) (hP : G.packageOf tree file = some P)
    (hfile : tree.isLibStdWarningLocation file = false) :
    G.importModule tree m file false = .ok c ↔
      (∃ f, tree.indexModuleDir "std" m = some f ∧ G.ownFiles tree file P m = [] ∧
        c = ⟨.stdlib, f, "", ""⟩) ∨
      (∃ f, tree.indexModuleDir "std" m = none ∧ G.ownFiles tree file P m = [f] ∧ m ∉ P.deps ∧
        c = ⟨.ownModule, f, G.ownKey tree P f, P.name⟩) ∨
      ∃ D, tree.indexModuleDir "std" m = none ∧ G.ownFiles tree file P m = [] ∧ m ∈ P.deps ∧
        G.find m = some D ∧ c = dependencyCandidate tree D m := by
  have hcollect : G.collectModuleCandidates tree m file false =
      G.collectPackageModuleCandidates tree m P file := by
    simp [collectModuleCandidates, hvalid.active, hP]
  rw [importModule, hfile, Bool.or_false, hcollect, collectPackageModuleCandidates, ownCandidates]
  by_cases hdep : m ∈ P.deps
  · obtain ⟨D, hD, hstd, -⟩ := hvalid.dependency P (mem_of_packageOf hP) m hdep
    have hindex : tree.indexModuleDir "std" m = none := by
      simpa [FileTree.isStdlibModuleName] using hstd
    simp only [hdep, if_true, hD, Option.map_some, hindex, Option.toList_none, List.map_nil,
      List.nil_append, reduceCtorEq, false_and, exists_false, false_or, not_true_eq_false,
      and_false, true_and, Option.some.injEq]
    cases hown : G.ownFiles tree file P m with
    | nil =>
      constructor
      · intro h
        exact ⟨D, rfl, rfl, (Except.ok.inj h).symm⟩
      · rintro ⟨E, -, rfl, rfl⟩
        rfl
    | cons f fs =>
      constructor
      · intro h
        cases fs <;> simp at h
      · simp
  · simp only [hdep, if_false, not_false_eq_true, true_and, false_and, and_false, exists_false,
      or_false]
    cases hindex : tree.indexModuleDir "std" m with
    | none =>
      cases hown : G.ownFiles tree file P m with
      | nil => simp
      | cons f fs =>
        cases fs with
        | nil =>
          constructor
          · intro h
            exact Or.inr ⟨f, rfl, rfl, (Except.ok.inj h).symm⟩
          · rintro (⟨g, hg, -⟩ | ⟨g, -, hg, rfl⟩)
            · contradiction
            · cases hg
              rfl
        | cons g gs => simp
    | some f =>
      cases hown : G.ownFiles tree file P m with
      | nil =>
        constructor
        · intro h
          exact Or.inl ⟨f, rfl, rfl, (Except.ok.inj h).symm⟩
        · rintro (⟨g, hg, -, rfl⟩ | ⟨g, hg, -⟩)
          · cases hg
            rfl
          · contradiction
      | cons g gs => simp

/-- No import dereferences a dependency that is not there. -/
theorem collectModuleCandidates_ne_none (hvalid : G.Valid tree) (m file : String)
    (stdlibOnly : Bool) : G.collectModuleCandidates tree m file stdlibOnly ≠ none := by
  simp only [collectModuleCandidates]
  split_ifs
  · cases hP : G.packageOf tree file with
    | none => simp
    | some P =>
      simp only [collectPackageModuleCandidates]
      split_ifs with hdep
      · obtain ⟨D, hD, -⟩ := hvalid.dependency P (mem_of_packageOf hP) m hdep
        simp [hD]
      · simp
  all_goals simp

/-! ### The capability -/

theorem mem_foldl_unsafeModuleDecl {parsed files : List String} {path : String} :
    path ∈ parsed.foldl (parseLeadingUnsafeModuleDecl tree) files ↔ path ∈ files ∨
      ∃ file ∈ parsed, tree.canonicalOrOriginal file = path ∧ tree.unsafeModule path = true := by
  induction parsed generalizing files with
  | nil => simp
  | cons file parsed ih =>
    rw [List.foldl_cons, ih, parseLeadingUnsafeModuleDecl]
    split
    case isTrue hdecl =>
      simp only [List.mem_cons, exists_eq_or_imp, or_assoc]
      constructor
      · rintro (rfl | h | h)
        · exact Or.inr (Or.inl ⟨rfl, hdecl⟩)
        · exact Or.inl h
        · exact Or.inr (Or.inr h)
      · rintro (h | ⟨rfl, -⟩ | h)
        · exact Or.inr (Or.inl h)
        · exact Or.inl rfl
        · exact Or.inr (Or.inr h)
    case isFalse hdecl =>
      simp only [List.mem_cons, exists_eq_or_imp]
      constructor
      · exact Or.imp_right Or.inr
      · rintro (h | ⟨rfl, h⟩ | h)
        · exact Or.inl h
        · contradiction
        · exact Or.inr h

/-- A file is in the set when one of the parsed files is it and declares itself. -/
theorem mem_unsafeModuleFiles {parsed : List String} {path : String} :
    path ∈ unsafeModuleFiles tree parsed ↔
      ∃ file ∈ parsed, tree.canonicalOrOriginal file = path ∧ tree.unsafeModule path = true := by
  rw [unsafeModuleFiles, mem_foldl_unsafeModuleDecl]
  simp

theorem hasRawPointerCapability_iff (hactive : G.active = true) {allowUnsafeModules : Bool}
    {parsed : List String} {file : String} (hparsed : file ∈ parsed)
    (houtside : tree.isPathUnderInstallRoot file = false) :
    G.hasRawPointerCapability tree allowUnsafeModules (unsafeModuleFiles tree parsed) file ↔
      tree.unsafeModule (tree.canonicalOrOriginal file) ∧
        ∃ P, G.packageOf tree file = some P ∧ P.allowUnsafe := by
  have hmem : tree.canonicalOrOriginal file ∈ unsafeModuleFiles tree parsed ↔
      tree.unsafeModule (tree.canonicalOrOriginal file) = true := by
    rw [mem_unsafeModuleFiles]
    constructor
    · rintro ⟨g, -, -, h⟩
      exact h
    · intro h
      exact ⟨file, hparsed, rfl, h⟩
  simp only [hasRawPointerCapability, hmem]
  by_cases hne : file = ""
  · simp [hne, packageOf_empty]
  cases hdecl : tree.unsafeModule (tree.canonicalOrOriginal file) with
  | false => simp
  | true =>
    cases hP : G.packageOf tree file with
    | none => simp [hactive, houtside]
    | some P => simp [hactive, houtside, hne]

/-! ### What decides it -/

/-- Only an own file of another package is ever named that should not be, and only when it is
alone in having the name. -/
theorem only_iff {file m : String} {P : PackageInfo} (hvalid : G.Valid tree)
    (hP : G.packageOf tree file = some P) (hfile : tree.isLibStdWarningLocation file = false) :
    (∀ c, G.importModule tree m file false = .ok c → Importable G tree file P m c.path) ↔
      ∀ f ∈ G.ownFiles tree file P m, G.packageOf tree f = some P ∨
        tree.isStdlibModuleName m ∨ m ∈ P.deps ∨ 1 < (G.ownFiles tree file P m).length := by
  constructor
  · intro h f hf
    by_contra hcon
    simp only [not_or, not_lt] at hcon
    obtain ⟨howner, hstd, hdep, hlen⟩ := hcon
    have hone : G.ownFiles tree file P m = [f] := by
      obtain ⟨g, hg⟩ := List.length_eq_one_iff.1
        (le_antisymm hlen (List.length_pos_of_mem hf))
      rw [hg, List.mem_singleton] at hf
      rw [hg, hf]
    have hindex : tree.indexModuleDir "std" m = none := by
      simpa [FileTree.isStdlibModuleName] using hstd
    have himport := h _ ((importModule_of_package hvalid hP hfile).2
      (Or.inr (Or.inl ⟨f, hindex, hone, hdep, rfl⟩)))
    rcases (importable_iff ..).1 himport with hmem | ⟨-, -, hown⟩ | ⟨-, -, hmem, -⟩
    · rw [indexModuleDir_eq_none.1 hindex] at hmem
      exact absurd hmem List.not_mem_nil
    · exact howner hown
    · exact hdep hmem
  · intro h c hc
    rcases (importModule_of_package hvalid hP hfile).1 hc with
      ⟨f, hindex, -, rfl⟩ | ⟨f, hindex, hone, hdep, rfl⟩ | ⟨D, -, -, hdep, hfind, rfl⟩
    · exact .stdlib (mem_of_indexModuleDir hindex)
    · have hmem : f ∈ G.ownFiles tree file P m := by simp [hone]
      rcases h f hmem with howner | hstd | hmem' | hlen
      · exact .own hfile hmem howner
      · simp [FileTree.isStdlibModuleName, hindex] at hstd
      · exact absurd hmem' hdep
      · simp [hone] at hlen
    · exact .dependency hfile hdep hfind

/-- Of several files of one name only those of the standard library are ever chosen from. -/
theorem one_iff {file m : String} {P : PackageInfo} (hvalid : G.Valid tree)
    (hP : G.packageOf tree file = some P) (hfile : tree.isLibStdWarningLocation file = false) :
    (∀ c, G.importModule tree m file false = .ok c →
        ∀ f, Importable G tree file P m f → tree.realPath f = tree.realPath c.path) ↔
      ∀ f, G.ownFiles tree file P m = [] → tree.indexModuleDir "std" m = some f →
        ∀ g ∈ tree.modulesNamed (tree.libDir "std") m, tree.realPath g = tree.realPath f := by
  constructor
  · intro h f hown hindex g hg
    exact h _ ((importModule_of_package hvalid hP hfile).2 (Or.inl ⟨f, hindex, hown, rfl⟩)) g
      (.stdlib hg)
  · intro h c hc f hf
    rcases (importModule_of_package hvalid hP hfile).1 hc with
      ⟨g, hindex, hown, rfl⟩ | ⟨g, hindex, hone, hdep, rfl⟩ | ⟨D, hindex, hown, hdep, hfind, rfl⟩
    · cases hf with
      | stdlib hmem => exact h g hown hindex f hmem
      | own _ hmem _ => simp [hown] at hmem
      | dependency _ hmem _ =>
        obtain ⟨D, -, hstd, -⟩ := hvalid.dependency P (mem_of_packageOf hP) m hmem
        simp [FileTree.isStdlibModuleName, hindex] at hstd
    · cases hf with
      | stdlib hmem => simp [indexModuleDir_eq_none.1 hindex] at hmem
      | own _ hmem _ =>
        rw [hone, List.mem_singleton] at hmem
        rw [hmem]
      | dependency _ hmem _ => exact absurd hmem hdep
    · cases hf with
      | stdlib hmem => simp [indexModuleDir_eq_none.1 hindex] at hmem
      | own _ hmem _ => simp [hown] at hmem
      | dependency _ _ hfind' =>
        rw [hfind] at hfind'
        cases hfind'
        rfl

/-- A package sees only its graph exactly when no file of another package (or of none) is alone
in having its name in the package's source tree, and no name is that of two files of the
standard library. -/
theorem seesOnlyGraph_iff {file : String} (h : loadPackageGraph tree file = .ok G) :
    SeesOnlyGraph G tree ↔ SourcesApart G tree := by
  have hvalid := valid_of_loadPackageGraph h
  constructor
  · intro hsees
    refine ⟨fun f P hP hfile m => (only_iff hvalid hP hfile).1 (hsees.only f P hP m),
      fun f P hP hfile m => (one_iff hvalid hP hfile).1 (hsees.one f P hP m),
      fun f P hP hfile m g hself hindex k hk => ?_⟩
    have hne : f ≠ "" := by
      rintro rfl
      simp [packageOf_empty] at hP
    exact hsees.one f P hP m _ ((importModule_of_libStd hne hfile).2 ⟨g, hindex, hself, rfl⟩) k
      (.stdlib hk)
  · intro hapart
    refine ⟨fun f P hP m c hc => ?_, fun f P hP m c hc => ?_,
      fun allow parsed f hparsed houtside =>
        hasRawPointerCapability_iff hvalid.active hparsed houtside⟩
    all_goals
      have hne : f ≠ "" := by
        rintro rfl
        simp [packageOf_empty] at hP
      cases hfile : tree.isLibStdWarningLocation f
    · exact (only_iff hvalid hP hfile).2 (hapart.own f P hP hfile m) c hc
    · obtain ⟨g, hindex, -, rfl⟩ := (importModule_of_libStd hne hfile).1 hc
      exact .stdlib (mem_of_indexModuleDir hindex)
    · exact (one_iff hvalid hP hfile).2 (hapart.stdlib f P hP hfile m) c hc
    · obtain ⟨g, hindex, hself, rfl⟩ := (importModule_of_libStd hne hfile).1 hc
      intro k hk
      cases hk with
      | stdlib hmem => exact hapart.inStdlib f P hP hfile m g hself hindex k hmem
      | own hout => simp [hfile] at hout
      | dependency hout => simp [hfile] at hout

/-- Every file of a package's directories lies below them, no file lies below directories of two
packages, and the standard library has one file a name. -/
structure Disjoint (G : PackageGraph) (tree : FileTree) : Prop where
  below : ∀ d ∈ G.dirs, ∀ m, ∀ f ∈ tree.modulesNamed d.2 m,
    ∃ c, tree.realPath f = some c ∧ d ∈ G.enclosing c
  apart : ∀ c, ∀ d ∈ G.enclosing c, ∀ e ∈ G.enclosing c, d.1 = e.1
  stdlib : ∀ m, ∀ f ∈ tree.modulesNamed (tree.libDir "std") m,
    ∀ g ∈ tree.modulesNamed (tree.libDir "std") m, tree.realPath f = tree.realPath g

/-- Where no package lies inside another, a package sees only its graph. -/
theorem sourcesApart_of_disjoint (hactive : G.active = true) (h : Disjoint G tree) :
    SourcesApart G tree := by
  refine ⟨fun file P hP _ m f hf => Or.inl ?_,
    fun _ _ _ _ m f _ hindex g hg => h.stdlib m g hg f (mem_of_indexModuleDir hindex),
    fun _ _ _ _ m f _ hindex g hg => h.stdlib m g hg f (mem_of_indexModuleDir hindex)⟩
  have hmem := mem_of_packageOf hP
  obtain ⟨dir, hdir, hf⟩ : ∃ dir, (P, dir) ∈ G.dirs ∧ f ∈ tree.modulesNamed dir m := by
    rw [ownFiles, List.mem_append] at hf
    rcases hf with hf | hf
    · exact ⟨_, mem_dirs.2 ⟨hmem, Or.inl rfl⟩, mem_indexPackageSources.1 hf⟩
    · split_ifs at hf
      · exact ⟨_, mem_dirs.2 ⟨hmem, Or.inr rfl⟩, mem_indexPackageSources.1 hf⟩
      · exact absurd hf List.not_mem_nil
  obtain ⟨c, hreal, henc⟩ := h.below _ hdir m f hf
  have hne : f ≠ "" := by
    rintro rfl
    exact not_empty_mem_modulesNamed hf
  exact packageOf_of_enclosing hactive hne hreal henc fun Q e he => h.apart c _ he _ henc

/-! ### A package vendored inside another -/

/-- A library whose sources lie inside those of the package that uses it. -/
def vendoredTree : FileTree where
  realPath p := if p ∈ ["/w/src", "/w/src/main.tr", "/w/src/vendor/lib",
    "/w/src/vendor/lib/lib.tr", "/w/src/vendor/lib/secret.tr"] then some p else none
  walk d :=
    if d = "/w/src" then
      [⟨"/w/src/main.tr", .regularFile⟩, ⟨"/w/src/vendor", .directory⟩,
        ⟨"/w/src/vendor/lib", .directory⟩, ⟨"/w/src/vendor/lib/lib.tr", .regularFile⟩,
        ⟨"/w/src/vendor/lib/secret.tr", .regularFile⟩]
    else if d = "/w/src/vendor/lib" then
      [⟨"/w/src/vendor/lib/lib.tr", .regularFile⟩, ⟨"/w/src/vendor/lib/secret.tr", .regularFile⟩]
    else []
  isDirectory d := d ∈ ["/w/src", "/w/src/vendor", "/w/src/vendor/lib"]
  isRegularFile f := f ∈ ["/w/src/main.tr", "/w/src/vendor/lib/lib.tr",
    "/w/src/vendor/lib/secret.tr"]
  readGraph _ := .json (.object [("format", .integer 1), ("root", .string "app"),
    ("packages", .object [
      ("app", .object [("src", .string "src"), ("deps", .array [.string "lib"])]),
      ("lib", .object [("src", .string "src/vendor/lib")])])])
  installRoot := "/turf"
  unsafeModule _ := false

def vendoredApp : PackageInfo := { name := "app", srcRoot := "/w/src", deps := ["lib"] }

def vendoredLib : PackageInfo := { name := "lib", srcRoot := "/w/src/vendor/lib" }

def vendoredGraph : PackageGraph :=
  { active := true, root := "app", packages := [vendoredApp, vendoredLib] }

theorem loadPackageGraph_vendored :
    loadPackageGraph vendoredTree "/w/graph.json" = .ok vendoredGraph := by
  rfl

theorem seesOnlyGraph_iff_vendored :
    SeesOnlyGraph vendoredGraph vendoredTree ↔ SourcesApart vendoredGraph vendoredTree :=
  seesOnlyGraph_iff loadPackageGraph_vendored

/-- The package imports a module that is internal to the library. -/
theorem not_seesOnlyGraph_vendored :
    loadPackageGraph vendoredTree "/w/graph.json" = .ok vendoredGraph ∧
      ¬ SeesOnlyGraph vendoredGraph vendoredTree := by
  refine ⟨loadPackageGraph_vendored, fun h => ?_⟩
  have himport : vendoredGraph.importModule vendoredTree "secret" "/w/src/main.tr" false =
      .ok ⟨.ownModule, "/w/src/vendor/lib/secret.tr", "", "app"⟩ := by rfl
  have howner : vendoredGraph.packageOf vendoredTree "/w/src/vendor/lib/secret.tr" =
      some vendoredLib := by rfl
  have hin := h.only "/w/src/main.tr" vendoredApp (by rfl) "secret" _ himport
  rcases (importable_iff ..).1 hin with hmem | ⟨-, -, hown⟩ | ⟨-, -, hmem, -⟩
  · exact absurd hmem (by decide)
  · rw [howner] at hown
    exact absurd hown (by decide)
  · exact absurd hmem (by decide)

end PackageGraph

end TurfLang
