import Sigil.Assoc
import Sigil.Build.Session

/-!
# Builds in a directory

A directory as a value, and builds that run in it. Paths are relative to the directory; a file can be
written where some file lies, and anywhere at the top. The tools make empty files.
-/

namespace Sigil.Build

/-- A directory: its files by path, and what has been printed. -/
structure Directory where
  files : Assoc String
  printed : List String
deriving Repr

namespace Directory

/-- The parts of a path that matter: not empty, and not a single dot. -/
def components (path : String) : List String :=
  (path.splitOn "/").filter fun c => c ≠ "" && c ≠ "."

/-- The shortest form of a path. -/
def simplify (path : String) : String :=
  String.intercalate "/" (components path)

/-- A directory with files. -/
def ofFiles (files : List (String × String)) : Directory :=
  ⟨files.foldl (fun fs (path, contents) => fs.put (simplify path) contents) [], []⟩

/-- Whether the folder of a path exists. -/
def hasFolder (d : Directory) (path : String) : Bool :=
  match (components path).dropLast with
  | [] => true
  | folder => d.files.any fun (p, _) => folder.isPrefixOf (components p).dropLast

/-- Why a file cannot be read or written. -/
def missing : String := "No such file or directory (os error 2)"

/-- Writes a file. -/
def write (d : Directory) (path contents : String) : Except String Unit × Directory :=
  if d.hasFolder path then (.ok (), { d with files := d.files.put (simplify path) contents })
  else (.error missing, d)

/-- Removes a file. -/
def remove (d : Directory) (path : String) : Directory :=
  { d with files := d.files.filter fun (p, _) => p ≠ simplify path }

/-- The surroundings of a build in a directory. -/
def host : Host (StateM Directory) where
  read path := fun d =>
    match d.files.get? (simplify path) with
    | some contents => (.ok contents, d)
    | none => (.error missing, d)
  write path contents := fun d => d.write path contents
  remove path := fun d => ((), d.remove path)
  assemble _ object := fun d => d.write object ""
  link _ executable := fun d => d.write executable ""
  print line := fun d => ((), { d with printed := d.printed ++ [line] })

/-- Does what a command line asks for in a directory: the exit code, and the directory afterwards. -/
def execute (d : Directory) (args : List String) : Nat × Directory :=
  Build.execute host args d

/-- The names in the directory, in alphabetical order. -/
def names (d : Directory) : List String :=
  (d.files.filterMap fun (p, _) => (components p).head?).eraseDups.mergeSort fun a b => decide (a ≤ b)

end Directory

end Sigil.Build
