import Sigil.Build.CommandLine
import Sigil.Compile
import Sigil.Report.Diagnostics
import Sigil.Report.Listing

/-!
# Builds

A build reads a program, compiles it, and has the assembly turned into an executable, telling the user
about each phase. What it needs from its surroundings, files and tools, is given as a `Host`, so that a
build can run in any of them.
-/

namespace Sigil.Build

/-- The files that a build makes. -/
structure Artifacts where
  assembly : String
  object : String
  executable : String
deriving DecidableEq, Repr

/-- The files for an executable: the others lie next to it. -/
def Artifacts.of (executable : String) : Artifacts :=
  ⟨executable ++ ".s", executable ++ ".o", executable⟩

/-- The surroundings of a build. What can fail gives a reason. -/
structure Host (m : Type → Type) where
  read : (path : String) → m (Except String String)
  write : (path contents : String) → m (Except String Unit)
  remove : (path : String) → m Unit
  /-- Makes an object file from an assembly file. -/
  assemble : (assembly object : String) → m (Except String Unit)
  /-- Makes an executable from an object file. -/
  link : (object executable : String) → m (Except String Unit)
  print : (line : String) → m Unit

variable {m : Type → Type} [Monad m]

/-- A phase of a build, which may stop. -/
abbrev Phase (m : Type → Type) := ExceptT Stop m

/-- Does something that may fail, and stops with the error if it does. -/
def attempt {α : Type} (wrap : String → Error) (action : m (Except String α)) : Phase m α := do
  match ← (liftM action : Phase m _) with
  | .ok a => return a
  | .error reason => throw (.errors [wrap reason])

/-- Tells the user about a phase. -/
def step (host : Host m) (o : Options) (text : String) : Phase m Unit :=
  if o.quiet then return () else host.print (Text.paintBold .green text)

/-- Runs the tools on the assembly file. -/
def runTools (host : Host m) (files : Artifacts) : m (Except Error Unit) := do
  match ← host.assemble files.assembly files.object with
  | .error reason => return .error (.assemble reason)
  | .ok () =>
    match ← host.link files.object files.executable with
    | .error reason => return .error (.link reason)
    | .ok () => return .ok ()

/-- Makes the executable. The files on the way are removed unless they are to be kept, also if a tool
fails. -/
def produce (host : Host m) (o : Options) (a : Assembly) : Phase m Unit := do
  let files := Artifacts.of o.name
  attempt .file (host.write files.assembly a.text)
  let result ← (runTools host files : m _)
  unless o.save do
    host.remove files.assembly
    host.remove files.object
  match result with
  | .ok () => return ()
  | .error e => throw (.errors [e])

/-- Compiles the text of a program. -/
def run (host : Host m) (o : Options) (code : String) : Phase m Unit := do
  step host o ("1. Lex & Parse: " ++ o.source)
  let program ← Compile.parse code
  step host o ("   - " ++ toString program.length ++ " definition(s)")
  step host o "2. Resolve Types"
  let checked ← Compile.check program
  step host o "3. Fold Constants"
  let folded ← Compile.fold checked
  step host o ("   - " ++ toString folded.folds ++ " rewrite(s)")
  step host o "4. Generate Code"
  let assembly ← Compile.generate folded
  if o.verbose then
    for line in assembly.listing folded.symbols do host.print line
  if let some path := o.map then
    attempt .file (host.write path (assembly.symbolMap folded.symbols).text)
    step host o ("   - symbol map: " ++ path)
  step host o "5. Assemble & Link"
  produce host o assembly
  if o.save then
    let files := Artifacts.of o.name
    step host o ("   - kept " ++ files.assembly ++ " and " ++ files.object)

/-- Prints the errors that stopped a build, and gives its exit code. -/
def report (host : Host m) (d : Diagnostics) : m Nat := do
  for line in d.lines do host.print line
  return if d.isExternal then 2 else 1

/-- Builds a program, and gives the exit code. -/
def build (host : Host m) (o : Options) : m Nat := do
  match ← host.read o.source with
  | .error reason => report host ⟨o.source, "", [.file reason]⟩
  | .ok code =>
    match ← (run host o code).run with
    | .ok () =>
      unless o.quiet do host.print (Text.paintBold .green "Done" ++ ": " ++ o.name)
      return 0
    | .error (.errors es) => report host ⟨o.source, code, es⟩
    | .error .trap => return 101

/-- The help on the program. -/
def programHelp : List String := [
  "Compiler for the Zura language",
  "",
  "Usage: zura <COMMAND>",
  "",
  "Commands:",
  "  build  Compile a source file into an executable",
  "  help   Print this message or the help of the given subcommand(s)",
  "",
  "Options:",
  "  -h, --help     Print help",
  "  -V, --version  Print version"]

/-- The help on building. -/
def buildHelp : List String := [
  "Compile a source file into an executable",
  "",
  "Usage: zura build [OPTIONS] <FILE>",
  "",
  "Arguments:",
  "  <FILE>  Source file",
  "",
  "Options:",
  "      --name <NAME>  Output executable [default: out]",
  "  -q, --quiet        Suppress progress output",
  "      --save         Keep the generated assembly and object files",
  "  -v, --verbose      Print the generated assembly",
  "      --map <MAP>    Write a JSON symbol map",
  "  -h, --help         Print help"]

/-- Does what a command line asks for, and gives the exit code. -/
def execute (host : Host m) (args : List String) : m Nat := do
  match Command.ofArguments args with
  | .build o => build host o
  | .version =>
    host.print "zura 0.1.0"
    return 0
  | .help onBuild =>
    for line in if onBuild then buildHelp else programHelp do host.print line
    return 0
  | .misuse => return 2

end Sigil.Build
