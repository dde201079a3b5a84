import Mathlib.Data.List.Dedup
import Mathlib.Data.List.MinMax
import TurfLang.Frontend.FileTree
import TurfLang.Lib.Loop

/-!
# The package graph

What a driver tells the compiler about the packages of a build: where the sources of each lie,
which packages it may import, and whether its `unsafe module;` is honoured. `loadPackageGraph`
reads and validates one; `packageOf` says which package a file is part of, by the longest of the
directories that the file lies below.
-/

namespace TurfLang

/-- The `"format"` a package graph must declare. -/
def packageGraphFormat : ℤ := 1

structure PackageInfo where
  name : String
  /-- Real path of the package's `src/`. -/
  srcRoot : String
  /-- Direct dependencies. -/
  deps : List String := []
  allowUnsafe : Bool := false
  /-- Real path of the package's `tests/`, or empty. -/
  testsRoot : String := ""
  deriving DecidableEq

structure PackageGraph where
  active : Bool := false
  root : String := ""
  packages : List PackageInfo := []

/-! ### Which package a file belongs to -/

namespace PackageGraph

variable (G : PackageGraph) (tree : FileTree)

def find (name : String) : Option PackageInfo := G.packages.find? fun P => P.name = name

/-- `Consider`: the best package so far, with the directory it was taken for. -/
def consider (c : String) (best : Option (PackageInfo × String)) (P : PackageInfo)
    (dir : String) : Option (PackageInfo × String) :=
  if dir ≠ "" ∧ isUnder c dir then
    match best with
    | none => some (P, dir)
    | some b => if b.2.toList.length < dir.toList.length then some (P, dir) else some b
  else best

def packageOf (path : String) : Option PackageInfo :=
  let c := tree.canonical path
  if !G.active || path = "" || c = "" then none
  else
    (G.packages.foldl
      (fun best P => consider c (consider c best P P.srcRoot) P P.testsRoot) none).map Prod.fst

def inTests (path : String) : Bool :=
  G.active && path != "" &&
    match G.find G.root with
    | some R => R.testsRoot != "" && tree.canonical path != "" &&
        isUnder (tree.canonical path) R.testsRoot
    | none => false

/-! The longest directory wins, and among equals the first. -/

/-- The directories of the graph, each with its package. -/
def dirs : List (PackageInfo × String) :=
  G.packages.flatMap fun P => [(P, P.srcRoot), (P, P.testsRoot)]

/-- The directories that a real path lies below. -/
def enclosing (c : String) : List (PackageInfo × String) :=
  G.dirs.filter fun d => d.2 ≠ "" ∧ isUnder c d.2

variable {G tree}

theorem mem_dirs {P : PackageInfo} {dir : String} :
    (P, dir) ∈ G.dirs ↔ P ∈ G.packages ∧ (dir = P.srcRoot ∨ dir = P.testsRoot) := by
  simp only [dirs, List.mem_flatMap, List.mem_cons, List.not_mem_nil, or_false, Prod.mk.injEq]
  constructor
  · rintro ⟨Q, hQ, ⟨rfl, h⟩ | ⟨rfl, h⟩⟩
    · exact ⟨hQ, Or.inl h⟩
    · exact ⟨hQ, Or.inr h⟩
  · rintro ⟨hP, h | h⟩
    · exact ⟨P, hP, Or.inl ⟨rfl, h⟩⟩
    · exact ⟨P, hP, Or.inr ⟨rfl, h⟩⟩

theorem foldl_consider (c : String) :
    G.packages.foldl (fun best P => consider c (consider c best P P.srcRoot) P P.testsRoot) none =
      (G.enclosing c).argmax fun d => d.2.toList.length := by
  have hdirs : G.packages.foldl
      (fun best P => consider c (consider c best P P.srcRoot) P P.testsRoot) none =
      G.dirs.foldl (fun best d => consider c best d.1 d.2) none := by
    rw [dirs, List.foldl_flatMap]
    rfl
  rw [hdirs, List.argmax, enclosing, List.foldl_filter]
  congr 1
  funext best d
  simp only [consider, decide_eq_true_eq]
  cases best <;> rfl

/-- The package of a file is that of the longest directory it lies below. -/
theorem exists_of_packageOf {path : String} {P : PackageInfo}
    (h : G.packageOf tree path = some P) :
    ∃ c dir, tree.realPath path = some c ∧ (P, dir) ∈ G.enclosing c ∧
      ∀ d ∈ G.enclosing c, d.2.toList.length ≤ dir.toList.length := by
  rw [packageOf] at h
  simp only [foldl_consider] at h
  split at h
  · contradiction
  · rename_i hguard
    simp only [Bool.or_eq_true, decide_eq_true_eq, not_or] at hguard
    obtain ⟨⟨P', dir⟩, hmax, rfl⟩ := Option.map_eq_some_iff.1 h
    refine ⟨tree.canonical path, dir, ?_, List.argmax_mem hmax,
      fun d hd => List.le_of_mem_argmax (f := fun d => d.2.toList.length) hd hmax⟩
    cases hreal : tree.realPath path with
    | none => simp [FileTree.canonical, hreal] at hguard
    | some c => simp [FileTree.canonical, hreal]

theorem mem_of_packageOf {path : String} {P : PackageInfo} (h : G.packageOf tree path = some P) :
    P ∈ G.packages := by
  obtain ⟨c, dir, -, hmem, -⟩ := exists_of_packageOf h
  exact (mem_dirs.1 (List.mem_of_mem_filter hmem)).1

/-- A file below a directory of `P`, and below none of another package, is part of `P`. -/
theorem packageOf_of_enclosing {path c dir : String} {P : PackageInfo} (hactive : G.active = true)
    (hpath : path ≠ "") (hreal : tree.realPath path = some c) (hdir : (P, dir) ∈ G.enclosing c)
    (honly : ∀ Q e, (Q, e) ∈ G.enclosing c → Q = P) : G.packageOf tree path = some P := by
  have hcanonical : tree.canonical path = c := by simp [FileTree.canonical, hreal]
  have hc : c ≠ "" := by
    rintro rfl
    simp [enclosing, not_isUnder_empty] at hdir
  have hguard : (!G.active || decide (path = "") || decide (c = "")) = false := by
    simp [hactive, hpath, hc]
  simp only [packageOf, hcanonical, foldl_consider, hguard, Bool.false_eq_true, if_false]
  cases hmax : (G.enclosing c).argmax fun d => d.2.toList.length with
  | none => simp [List.argmax_eq_none.1 hmax] at hdir
  | some d => rw [Option.map_some, honly d.1 d.2 (List.argmax_mem hmax)]

end PackageGraph

/-! ### Reading a graph -/

namespace JsonValue

def getAsObject : JsonValue → Option (List (String × JsonValue))
  | .object fields => some fields
  | _ => none

def getAsArray : JsonValue → Option (List JsonValue)
  | .array vs => some vs
  | _ => none

def getAsString : JsonValue → Option String
  | .string s => some s
  | _ => none

def getAsInteger : JsonValue → Option ℤ
  | .integer n => some n
  | _ => none

def getAsBoolean : JsonValue → Option Bool
  | .boolean b => some b
  | _ => none

/-- A field of an object. -/
def field (fields : List (String × JsonValue)) (key : String) : Option JsonValue :=
  (fields.find? fun kv => kv.1 = key).map Prod.snd

end JsonValue

open JsonValue

/-- A package name is spelled in `import`. -/
def isIdentifier (s : String) : Bool :=
  match s.toList with
  | [] => false
  | c :: cs => (c.isAlpha || c == '_') && (c :: cs).all fun c => c.isAlphanum || c == '_'

namespace FileTree

variable (tree : FileTree)

/-- The real path of a directory that the graph names, relative to the graph's own. -/
def graphDir (baseDir path : String) : Except String String := do
  let path := if Path.isAbsolute path then path else Path.append baseDir path
  if !tree.isDirectory path then throw path
  pure (tree.canonical path)

/-- `"tests"`: only the root package has one. -/
def readTests (baseDir root name : String) (p : List (String × JsonValue)) :
    Except String String :=
  match field p "tests" with
  | none => pure ""
  | some tests =>
    match tests.getAsString with
    | none => throw ("package '" ++ name ++ "': \"tests\" must be a directory path")
    | some tests =>
      if name ≠ root then
        throw ("package '" ++ name ++ "': only the root package can have \"tests\"")
      else
        (tree.graphDir baseDir tests).mapError fun dir =>
          "package '" ++ name ++ "': tests directory " ++ dir ++ " does not exist"

def readDeps (name : String) (p : List (String × JsonValue)) : Except String (List String) :=
  match (field p "deps").bind getAsArray with
  | none => pure []
  | some deps => deps.mapM fun d =>
    match d.getAsString with
    | some dep => pure dep
    | none => throw ("package '" ++ name ++ "': \"deps\" must be a list of package names")

/-- One entry of `"packages"`. -/
def readPackage (baseDir root : String) (kv : String × JsonValue) :
    Except String PackageInfo := do
  let name := kv.1
  if !isIdentifier name then
    throw ("package name '" ++ name ++ "' is not an identifier (it is spelled in `import`)")
  let some p := kv.2.getAsObject
    | throw ("package '" ++ name ++ "' must be an object")
  let some src := (field p "src").bind getAsString
    | throw ("package '" ++ name ++ "' has no \"src\" directory")
  let srcRoot ← (tree.graphDir baseDir src).mapError fun dir =>
    "package '" ++ name ++ "': src directory " ++ dir ++ " does not exist"
  let deps ← readDeps name p
  let allowUnsafe := ((field p "allow_unsafe").bind getAsBoolean).getD false
  let testsRoot ← tree.readTests baseDir root name p
  -- A misspelled key must not silently mean that it was left out.
  if let some kv := p.find? fun kv => kv.1 ∉ ["src", "deps", "allow_unsafe", "tests"] then
    throw ("package '" ++ name ++ "': unknown key \"" ++ kv.1 ++ "\"")
  pure { name, srcRoot, deps, allowUnsafe, testsRoot }

/-- The object at the top of the file. -/
def readTop (file : String) (top : List (String × JsonValue)) : Except String PackageGraph :=
  if (field top "format").bind getAsInteger ≠ some packageGraphFormat then
    .error ("\"format\" must be " ++ toString packageGraphFormat ++
      " (this turfc reads package-graph format " ++ toString packageGraphFormat ++ ")")
  else
    match (field top "root").bind getAsString with
    | none => .error "missing \"root\" (the name of the package being built)"
    | some root =>
      let pkgs := ((field top "packages").bind getAsObject).getD []
      if pkgs.isEmpty then
        .error "missing \"packages\" (an object from package name to package)"
      else do
        let packages ← pkgs.mapM (tree.readPackage (Path.removeFilename file) root)
        pure { active := true, root, packages }

def readPackageGraph (file : String) : Except String PackageGraph :=
  match tree.readGraph file with
  | .unreadable message => .error ("cannot read it (" ++ message ++ ")")
  | .notJson message => .error ("not valid JSON (" ++ message ++ ")")
  | .json v =>
    match v.getAsObject with
    | none => .error "the top level must be an object"
    | some top => tree.readTop file top

end FileTree

/-! ### Validating it -/

namespace PackageGraph

variable (G : PackageGraph) (tree : FileTree)

/-- The dependencies of one package; `seen` are those already gone through. -/
def checkDeps (P : PackageInfo) : List String → List String → Except String Unit
  | _, [] => .ok ()
  | seen, d :: ds =>
    if d ∈ seen then
      .error ("package '" ++ P.name ++ "' lists dependency '" ++ d ++ "' twice")
    else if d = P.name then
      .error ("package '" ++ P.name ++ "' lists itself as a dependency")
    else if (G.find d).isNone then
      .error ("package '" ++ P.name ++ "' depends on '" ++ d ++ "', which is not in \"packages\"")
    else checkDeps P (d :: seen) ds

/-- The root module of a package, `src/<name>.tr`. -/
def rootModule (D : PackageInfo) (name : String) : String :=
  Path.append D.srcRoot (name ++ ".tr")

/-- Only a library package whose name is no standard-library module can be depended on. -/
def checkDependency (name : String) : Except String Unit :=
  match G.find name with
  | none => .ok ()
  | some D =>
    if tree.isStdlibModuleName name then
      .error ("dependency '" ++ name ++ "' has the name of a standard-library module, so `import " ++
        name ++ ";` could never name it; rename the package")
    else if !tree.isRegularFile (rootModule D name) then
      .error ("package '" ++ name ++ "' is a dependency but has no root module " ++
        rootModule D name ++ " (only a library package can be depended on)")
    else .ok ()

/-- `Depended`: a sorted set. -/
def depended : List String := (G.packages.flatMap PackageInfo.deps).dedup.insertionSort (· ≤ ·)

def validate : Except String Unit :=
  if (G.find G.root).isNone then
    .error ("\"root\" names '" ++ G.root ++ "', which is not in \"packages\"")
  else do
    G.packages.forM fun P => G.checkDeps P [] P.deps
    G.depended.forM (G.checkDependency tree)

end PackageGraph

open PackageGraph

/-! ### What a graph that was accepted is good for -/

namespace PackageGraph

variable {G : PackageGraph} {tree : FileTree}

theorem mem_depended {name : String} :
    name ∈ G.depended ↔ ∃ P ∈ G.packages, name ∈ P.deps := by
  rw [depended, List.mem_insertionSort, List.mem_dedup, List.mem_flatMap]

theorem isSome_of_checkDeps {P : PackageInfo} {seen ds : List String}
    (h : G.checkDeps P seen ds = .ok ()) : ∀ d ∈ ds, (G.find d).isSome := by
  induction ds generalizing seen with
  | nil => simp
  | cons d ds ih =>
    rw [checkDeps] at h
    split_ifs at h with hseen hself hfind
    intro e he
    rcases List.mem_cons.1 he with rfl | he
    · simpa [Option.isSome_iff_ne_none] using hfind
    · exact ih h e he

/-- Every dependency is a package with a root module, and no name of the standard library. -/
structure Valid (G : PackageGraph) (tree : FileTree) : Prop where
  active : G.active = true
  root : (G.find G.root).isSome
  dependency : ∀ P ∈ G.packages, ∀ d ∈ P.deps, ∃ D, G.find d = some D ∧
    tree.isStdlibModuleName d = false ∧ tree.isRegularFile (rootModule D d) = true

theorem valid_of_validate (hactive : G.active = true) (h : G.validate tree = .ok ()) :
    G.Valid tree := by
  rw [validate] at h
  split_ifs at h with hroot
  obtain ⟨u, hdeps, hdepended⟩ := Loop.bind_eq_ok.1 h
  refine ⟨hactive, by simpa [Option.isSome_iff_ne_none] using hroot, fun P hP d hd => ?_⟩
  have hsome := isSome_of_checkDeps (Loop.forM_eq_ok.1 hdeps P hP) d hd
  obtain ⟨D, hD⟩ := Option.isSome_iff_exists.1 hsome
  have hcheck := Loop.forM_eq_ok.1 hdepended d (mem_depended.2 ⟨P, hP, hd⟩)
  simp only [checkDependency, hD] at hcheck
  split_ifs at hcheck with hstd hregular
  exact ⟨D, hD, by simpa using hstd, by simpa using hregular⟩

end PackageGraph

def graphError (file message : String) : String := "package graph " ++ file ++ ": " ++ message

def loadPackageGraph (tree : FileTree) (file : String) : Except String PackageGraph :=
  (do
    let G ← tree.readPackageGraph file
    G.validate tree
    pure G).mapError (graphError file)

/-- The overload for a compile: the entry file must be one that the graph describes. -/
def loadPackageGraphFor (tree : FileTree) (file entryFile : String) (entryIsModule : Bool) :
    Except String PackageGraph := do
  let G ← loadPackageGraph tree file
  match G.find G.root with
  | none => pure G
  | some R =>
    let entry := tree.canonical entryFile
    let entryIsTest := entry ≠ "" ∧ R.testsRoot ≠ "" ∧ isUnder entry R.testsRoot
    if entry = "" ∨ (¬ isUnder entry R.srcRoot ∧ ¬ entryIsTest) then
      throw (graphError file ("the file being compiled (" ++ entryFile ++
        ") is not inside the root package's src " ++ R.srcRoot ++
        (if R.testsRoot = "" then "" else " or tests " ++ R.testsRoot)))
    else if !entryIsModule ∧ ¬ entryIsTest ∧
        entry ≠ tree.canonical (Path.append R.srcRoot "main.tr") then
      throw (graphError file ("in a package build the program's entry point is the root " ++
        "package's src/main.tr, not " ++ entryFile ++ " (check another file of the package " ++
        "with --check --module; run a single file on its own without --package-graph)"))
    else pure G

theorem active_of_readPackageGraph {tree : FileTree} {file : String} {G : PackageGraph}
    (h : tree.readPackageGraph file = .ok G) : G.active = true := by
  rw [FileTree.readPackageGraph] at h
  split at h <;> try contradiction
  split at h <;> try contradiction
  rw [FileTree.readTop] at h
  split at h <;> try contradiction
  split at h <;> try contradiction
  simp only at h
  split at h <;> try contradiction
  obtain ⟨packages, -, h⟩ := Loop.bind_eq_ok.1 h
  cases h
  rfl

theorem valid_of_loadPackageGraph {tree : FileTree} {file : String} {G : PackageGraph}
    (h : loadPackageGraph tree file = .ok G) : G.Valid tree := by
  rw [loadPackageGraph] at h
  cases hread : tree.readPackageGraph file with
  | error e => simp [hread, bind, Except.bind, Except.mapError] at h
  | ok H =>
    cases hvalidate : H.validate tree with
    | error e => simp [hread, hvalidate, bind, Except.bind, Except.mapError] at h
    | ok u =>
      simp only [hread, hvalidate, bind, Except.bind, pure, Except.pure, Except.mapError,
        Except.ok.injEq] at h
      subst h
      exact valid_of_validate (active_of_readPackageGraph hread) hvalidate

theorem loadPackageGraph_of_entry {tree : FileTree} {file entryFile : String}
    {entryIsModule : Bool} {G : PackageGraph}
    (h : loadPackageGraphFor tree file entryFile entryIsModule = .ok G) :
    loadPackageGraph tree file = .ok G := by
  obtain ⟨H, hload, h⟩ := Loop.bind_eq_ok.1 h
  split at h
  · cases h
    exact hload
  · simp only at h
    split_ifs at h
    cases h
    exact hload

end TurfLang
