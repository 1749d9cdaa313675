import Cartridge.CommandLine.Options
import Cartridge.Compile.Basic
import Cartridge.Json.Document
import Cartridge.Source.Embedded
import Cartridge.Source.Reader
import Cartridge.Text.Style

/-!
# The command line

A command reads a tree and perhaps a configuration, compiles the tree, and writes the image. It
works on files through the two operations of a file system, so the same command runs on the files
of a machine and on a tree of files that is given as a value.

Main definitions:

- `FileSystem`: reading and writing files.
- `CommandLine.run`: carries out a command.
-/

namespace Cartridge

/-- Reading and writing files. -/
structure FileSystem (m : Type → Type) where
  read : String → m (Except FileError (List UInt8))
  /-- Whether the file could be written. -/
  write : String → List UInt8 → m Bool

/-- The file system of a given tree of files. -/
def FileTree.system : FileSystem (StateM FileTree) where
  read path := do return (← get).read path
  write path bytes := do
    match (← get).write? path bytes with
    | none => return false
    | some tree =>
      set tree
      return true

/-- What a command leaves behind. -/
structure Report where
  exit : UInt8 := 0
  /-- What it prints. -/
  stdout : String := ""
  /-- What it prints about errors. -/
  stderr : String := ""
deriving DecidableEq, Repr

/-- A diagnostic as it is shown on a terminal. -/
def Diagnostic.shown (d : Diagnostic) : String :=
  Style.alert (if d.fatal then "fatal" else "error") ++ ": " ++ d.message ++ "\n" ++
    match d.pos with
    | none => ""
    | some pos => "     " ++ Style.blue "-->" ++ " " ++ Style.underline pos.text ++ "\n"

namespace CommandLine

variable {m : Type → Type} [Monad m]

/-- The report of a command that an error has ended. -/
def failed (stdout : String) (e : Error) : Report where
  exit := 1
  stdout := stdout ++ Style.alert "error" ++ ": " ++ e.message ++ "\n"

/-- What is wrong with a document that holds no tree or no configuration. -/
def complaint (path : String) (required : List String) (document : Document) : Error :=
  match document.value? with
  | some (.object fields) =>
    match required.find? fun key => !fields.any (·.1 == key) with
    | some key => .malformed path (s!"missing field `{key}`" ++ document.start.mention)
    | none => .malformed path "invalid value"
  | _ => .malformed path "invalid document"

/-- The value that the bytes of a file stand for. -/
def decode {α : Type} (path : String) (ofJson? : Json → Option α) (required : List String)
    (bytes : List UInt8) : Except Error α :=
  match String.fromUTF8? bytes.toByteArray with
  | none => .error (.malformed path "invalid document")
  | some text =>
    let document := Document.ofText text
    match document.value?.bind ofJson? with
    | some value => .ok value
    | none => .error (complaint path required document)

/-- The value that a file holds. -/
def load {α : Type} (system : FileSystem m) (path : String) (ofJson? : Json → Option α)
    (required : List String) : m (Except Error α) := do
  match ← system.read path with
  | .error .isDirectory => return .error (.malformed path FileError.isDirectory.message)
  | .error _ => return .error (.fileOpen path)
  | .ok bytes => return decode path ofJson? required bytes

/-- The configuration that the options ask for. -/
def loadConfig (system : FileSystem m) (o : Options) : m (Except Error Config) := do
  let config ← match o.config with
    | none => pure (.ok {})
    | some path => load system path Config.ofJson? []
  return config.map fun c =>
    { c with errorLimit := o.maxErrors.getD c.errorLimit, verbose := c.verbose || o.verbose }

/-- Reads files in order. -/
def readAll (system : FileSystem m) : List String → m Files
  | [] => pure fun _ => .error .notFound
  | path :: rest => do
    let found ← system.read path
    let others ← readAll system rest
    return fun other => if other = path then found else others other

/-- Compiles a program as the options and the configuration say. -/
def compileWith (system : FileSystem m) (o : Options) (config : Config) (stdout : String)
    (program : Program) : m Report := do
  let files ← readAll system program.embedded
  let compilation := program.compile files config
  let notes := if config.verbose then
      String.join (compilation.notes.map fun n => " * " ++ n.text ++ "\n")
    else ""
  let stdout := stdout ++ "2. Compile\n" ++ notes
  match compilation.result with
  | .error failure =>
    let shown := if config.quiet then ""
      else String.join (failure.diagnostics.map Diagnostic.shown)
    return { exit := 1, stdout
             stderr := shown ++ s!"* nelc: failed with {failure.errors} error(s).\n" }
  | .ok image =>
    let stdout := stdout ++ s!"3. Write {o.outputPath} ({image.length} bytes)\n"
    if ← system.write o.outputPath image then
      return { stdout := stdout ++
        s!"Successfully compiled {o.inputPath} to {o.outputPath}\n" }
    else
      return failed stdout (.fileWrite o.outputPath)

/-- Carries out a command with well-formed arguments. -/
def runWith (system : FileSystem m) (o : Options) : m Report := do
  match ← loadConfig system o with
  | .error e => return failed "" e
  | .ok config =>
    let stdout := s!"1. Load {o.inputPath}\n"
    match ← load system o.inputPath Program.ofJson? ["statements"] with
    | .error e => return failed stdout e
    | .ok program => compileWith system o config stdout program

/-- Carries out a command. -/
def run (system : FileSystem m) (arguments : List String) : m Report := do
  match Options.ofArguments? arguments with
  | none =>
    return { exit := 2
             stderr := "usage: [INPUT] [-o OUTPUT] [-c CONFIG] [--max-errors N] [-v]\n" }
  | some o => runWith system o

end CommandLine

end Cartridge
