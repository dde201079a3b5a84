import Mathlib.Data.List.Sort

/-!
# The tree of files

What the compiler asks of the file system while it looks for modules: real paths, the entries a
recursive walk of a directory yields, the kinds of files. The two indexes of module names are
read off such walks: that of the standard library, which keeps one file a name, and that of a
package's sources, which keeps them all.
-/

namespace TurfLang

/-! ### Paths -/

namespace Path

/-- What follows the last separator. -/
def filename (p : String) : List Char := (p.toList.reverse.takeWhile (· ≠ '/')).reverse

/-- The file name up to its last dot, and from that dot on. -/
def splitName (p : String) : List Char × List Char :=
  let name := filename p
  let tail := (name.reverse.takeWhile (· ≠ '.')).reverse
  if name.contains '.' && name != ['.'] && name != ['.', '.'] then
    (name.take (name.length - tail.length - 1), '.' :: tail)
  else (name, [])

def stem (p : String) : String := String.ofList (splitName p).1

def extension (p : String) : String := String.ofList (splitName p).2

/-- One separator between the two parts. -/
def append (p component : String) : String :=
  match p.toList.getLast? with
  | none => component
  | some '/' => p ++ String.ofList (component.toList.dropWhile (· == '/'))
  | some _ => if component.toList.head? = some '/' then p ++ component else p ++ "/" ++ component

def isAbsolute (p : String) : Bool := p.toList.head? == some '/'

/-- The directory part; the root keeps its separator. -/
def removeFilename (p : String) : String :=
  let dir := p.toList.take (p.toList.length - (filename p).length)
  let bare := (dir.reverse.dropWhile (· == '/')).reverse
  if bare = [] ∧ dir ≠ [] then "/" else String.ofList bare

example : (stem "/w/src/list.tr", extension "/w/src/list.tr") = ("list", ".tr") := by decide

example : append (removeFilename "/w/src/main.tr") "list.tr" = "/w/src/list.tr" := by decide

end Path

/-- What comes right after a directory's name in the paths below it. -/
def isSeparator (c : Char) : Bool := c == '/' || c == '\\'

/-- `Path` lies strictly below `Dir`; both are real paths. -/
def isUnder (path dir : String) : Bool :=
  dir.toList.isPrefixOf path.toList &&
    match path.toList[dir.toList.length]? with
    | some c => isSeparator c
    | none => false

theorem not_isUnder_empty (dir : String) : isUnder "" dir = false := by
  simp [isUnder]

/-! ### Files -/

inductive FileType
  | regularFile
  | directory
  | symlink
  | other
  deriving DecidableEq

/-- What a recursive directory iterator stands on. -/
structure DirEntry where
  path : String
  type : FileType
  deriving DecidableEq

/-- `llvm::json::Value`. Of a number that is no integer nothing is asked. -/
inductive JsonValue
  | null
  | boolean (b : Bool)
  | integer (n : ℤ)
  | double
  | string (s : String)
  | array (vs : List JsonValue)
  | object (fields : List (String × JsonValue))

/-- Reading a graph file. -/
inductive GraphFile
  | unreadable (message : String)
  | notJson (message : String)
  | json (v : JsonValue)

/-- The files as the compiler finds them. -/
structure FileTree where
  /-- `none` where `real_path` fails. -/
  realPath : String → Option String
  /-- The entries of the recursive walk of a directory, up to its end or its first error. -/
  walk : String → List DirEntry
  isDirectory : String → Bool
  isRegularFile : String → Bool
  readGraph : String → GraphFile
  /-- `TurfInstallRoot()`. -/
  installRoot : String
  /-- The file of a real path begins with `unsafe module;`. -/
  unsafeModule : String → Bool

namespace FileTree

variable (tree : FileTree)

/-- `Canonical`. -/
def canonical (path : String) : String := (tree.realPath path).getD ""

def canonicalOrOriginal (path : String) : String := (tree.realPath path).getD path

/-- `llvm::sys::fs::equivalent`. -/
def equivalent (a b : String) : Bool :=
  match tree.realPath a, tree.realPath b with
  | some x, some y => x == y
  | _, _ => false

def isPathUnderDir (path root : String) : Bool :=
  path != "" &&
    match tree.realPath path, tree.realPath root with
    | some p, some r => p == r || isUnder p r
    | _, _ => false

def isPathUnderInstallRoot (path : String) : Bool := tree.isPathUnderDir path tree.installRoot

/-- `<root>/lib/<subdir>`. -/
def libDir (subdir : String) : String :=
  Path.append (Path.append tree.installRoot "lib") subdir

def isLibStdWarningLocation (path : String) : Bool :=
  tree.isPathUnderDir path (tree.libDir "std")

/-! ### Indexes of module names -/

/-- The `.tr` files under a directory whose name is that of a module. -/
def modulesNamed (dir name : String) : List String :=
  ((tree.walk dir).filter fun e =>
    e.type = .regularFile && Path.extension e.path = ".tr" && Path.stem e.path = name).map
      DirEntry.path

/-- Looking a name up in `IndexModuleDir`: the first hit wins. -/
def indexModuleDir (subdir name : String) : Option String :=
  (tree.modulesNamed (tree.libDir subdir) name).head?

def isStdlibModuleName (name : String) : Bool := (tree.indexModuleDir "std" name).isSome

/-- Looking a name up in `IndexPackageSources`: every file of the name, in the order of the
paths. -/
def indexPackageSources (srcRoot name : String) : List String :=
  (tree.modulesNamed srcRoot name).insertionSort (· ≤ ·)

variable {tree}

@[simp]
theorem mem_indexPackageSources {srcRoot name f : String} :
    f ∈ tree.indexPackageSources srcRoot name ↔ f ∈ tree.modulesNamed srcRoot name :=
  List.mem_insertionSort (· ≤ ·)

theorem not_empty_mem_modulesNamed {dir name : String} : "" ∉ tree.modulesNamed dir name := by
  intro h
  obtain ⟨e, he, hpath⟩ := List.mem_map.1 h
  have hext := (List.mem_filter.1 he).2
  rw [hpath, show Path.extension "" = "" by decide] at hext
  simp at hext

theorem mem_of_indexModuleDir {subdir name f : String}
    (h : tree.indexModuleDir subdir name = some f) :
    f ∈ tree.modulesNamed (tree.libDir subdir) name :=
  List.mem_of_mem_head? h

theorem indexModuleDir_eq_none {subdir name : String} :
    tree.indexModuleDir subdir name = none ↔ tree.modulesNamed (tree.libDir subdir) name = [] := by
  rw [indexModuleDir, List.head?_eq_none_iff]

end FileTree

end TurfLang
