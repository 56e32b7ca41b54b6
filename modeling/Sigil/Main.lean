import Sigil.Build.Session

/-!
# The program

Builds with the files of the system. The tools of the system are not called: the object file and the
executable are left empty.
-/

namespace Sigil

/-- The reason for a failure. -/
def failureText (e : IO.Error) : String :=
  match e with
  | .noFileOrDirectory .. => "No such file or directory (os error 2)"
  | e => toString e

/-- The result of an action that may fail. -/
def attempted {α : Type} (action : IO α) : IO (Except String α) := do
  try
    return .ok (← action)
  catch e => return .error (failureText e)

/-- The surroundings of a build on the system. -/
def systemHost : Build.Host IO where
  read path := attempted (IO.FS.readFile path)
  write path contents := attempted (IO.FS.writeFile path contents)
  remove path := discard (attempted (IO.FS.removeFile path))
  assemble _ object := attempted (IO.FS.writeFile object "")
  link _ executable := attempted (IO.FS.writeFile executable "")
  print line := IO.println line

end Sigil

/-- Runs the command line. -/
def main (args : List String) : IO UInt32 := do
  return (← Sigil.Build.execute Sigil.systemHost args).toUInt32
