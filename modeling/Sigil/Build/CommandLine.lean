/-!
# The command line

What a user can ask for. Options have long names after two dashes, of which one may be left out, and
two flags have single letters, which can be combined. A value follows its option after an equals sign
or as the next argument. Every option may be given once.
-/

namespace Sigil.Build

/-- What a build is asked to do. -/
structure Options where
  /-- The file with the program. -/
  source : String
  /-- The path of the executable. -/
  name : String
  /-- Print nothing on the way. -/
  quiet : Bool
  /-- Keep the assembly and object files. -/
  save : Bool
  /-- Print a listing. -/
  verbose : Bool
  /-- Where to write the symbol map, if anywhere. -/
  map : Option String
deriving DecidableEq, Repr

/-- What a command line asks for. -/
inductive Command where
  | build (o : Options)
  | version
  /-- Help on the program, or on building. -/
  | help (onBuild : Bool)
  | misuse
deriving DecidableEq, Repr

/-! ## Arguments -/

/-- An argument by its form. -/
inductive Argument where
  /-- The two dashes that end the options. -/
  | endOfOptions
  /-- A long name, with the value behind its equals sign. -/
  | long (name : String) (value : Option String)
  /-- Letters behind one dash. -/
  | letters (cs : List Char)
  | plain (text : String)
deriving DecidableEq, Repr

/-- The text before the first equals sign, and the one behind it if there is one. -/
def splitValue (cs : List Char) : String × Option String :=
  let value :=
    match cs.dropWhile (· != '=') with
    | [] => none
    | _ :: v => some (String.ofList v)
  (String.ofList (cs.takeWhile (· != '=')), value)

/-- The form of an argument. A single dash is plain. -/
def Argument.ofString (s : String) : Argument :=
  match s.toList with
  | ['-', '-'] => endOfOptions
  | '-' :: '-' :: cs =>
    let (name, value) := splitValue cs
    long name value
  | '-' :: c :: cs => letters (c :: cs)
  | _ => plain s

/-- The options that may be written with one dash. -/
def singleDashed : List String := ["name", "quiet", "save", "verbose", "map"]

/-- Gives a long name after one dash its second dash. -/
def fullForm (s : String) : String :=
  match s.toList with
  | '-' :: cs =>
    if cs.head? ≠ some '-' && singleDashed.contains (splitValue cs).1 then "-" ++ s else s
  | _ => s

/-! ## Building -/

/-- The options that have been read so far. -/
structure Draft where
  source : Option String
  name : Option String
  quiet : Bool
  save : Bool
  verbose : Bool
  map : Option String
deriving DecidableEq, Repr

namespace Draft

/-- No options yet. -/
def empty : Draft := ⟨none, none, false, false, false, none⟩

/-- Adds the file with the program; a path is never empty. -/
def addSource (d : Draft) (path : String) : Option Draft :=
  if d.source.isNone && path ≠ "" then some { d with source := some path } else none

/-- Whether a long name takes a value. -/
def takesValue (x : String) : Bool :=
  x = "name" || x = "map"

/-- Sets an option that takes a value. -/
def setValue (d : Draft) (x value : String) : Option Draft :=
  if x = "name" && d.name.isNone then some { d with name := some value }
  else if x = "map" && d.map.isNone && value ≠ "" then some { d with map := some value }
  else none

/-- Sets a flag. -/
def setFlag (d : Draft) (x : String) : Option Draft :=
  if x = "quiet" && !d.quiet then some { d with quiet := true }
  else if x = "save" && !d.save then some { d with save := true }
  else if x = "verbose" && !d.verbose then some { d with verbose := true }
  else none

/-- The command, if there is a file. -/
def command (d : Draft) : Command :=
  match d.source with
  | some source =>
    .build ⟨source, d.name.getD "out", d.quiet, d.save, d.verbose, d.map⟩
  | none => .misuse

/-- Reads plain arguments. -/
def readPlain (d : Draft) : List String → Command
  | [] => d.command
  | s :: rest =>
    match d.addSource s with
    | some d => readPlain d rest
    | none => .misuse

/-- Reads letters, or finds what they ask for instead. -/
def readLetters (d : Draft) : List Char → Except Command Draft
  | [] => .ok d
  | 'h' :: _ => .error (.help true)
  | c :: cs =>
    let flag := if c = 'q' then "quiet" else if c = 'v' then "verbose" else ""
    match d.setFlag flag with
    | some d => readLetters d cs
    | none => .error .misuse

/-- Reads the arguments of a build. -/
def read (d : Draft) : List String → Command
  | [] => d.command
  | s :: rest =>
    match Argument.ofString s with
    | .endOfOptions => d.readPlain rest
    | .plain path =>
      match d.addSource path with
      | some d => read d rest
      | none => .misuse
    | .letters cs =>
      match d.readLetters cs with
      | .ok d => read d rest
      | .error command => command
    | .long x (some value) =>
      match d.setValue x value with
      | some d => read d rest
      | none => .misuse
    | .long x none =>
      if x = "help" then .help true
      else if takesValue x then
        match rest with
        | [] => .misuse
        | v :: rest =>
          match Argument.ofString v with
          | .plain value =>
            match d.setValue x value with
            | some d => read d rest
            | none => .misuse
          | _ => .misuse
      else
        match d.setFlag x with
        | some d => read d rest
        | none => .misuse

end Draft

/-! ## All commands -/

/-- The command that a command line asks for, all options in their full form. -/
def Command.ofFullForm : List String → Command
  | "build" :: rest => Draft.empty.read rest
  | ["help"] => .help false
  | ["help", "build"] => .help true
  | s :: _ =>
    match Argument.ofString s with
    | .long "version" none | .letters ('V' :: _) => .version
    | .long "help" none | .letters ('h' :: _) => .help false
    | _ => .misuse
  | [] => .misuse

/-- The command that a command line asks for. -/
def Command.ofArguments (args : List String) : Command :=
  .ofFullForm (args.map fullForm)

end Sigil.Build
