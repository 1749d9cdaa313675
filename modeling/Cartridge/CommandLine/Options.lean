/-!
# Options of the command line

What the arguments of a command ask for. An option that takes a value has it in the next argument or
in its own, after `=`. Short options without values may share an argument. After `--` nothing is
an option any more.

Main definitions:

- `Options.ofArguments?`: the options that arguments ask for, if they are well formed.
-/

namespace Cartridge

/-- What a command asks for. -/
structure Options where
  /-- The file with the tree. -/
  input : Option String := none
  /-- The file for the image. -/
  output : Option String := none
  /-- The file with the configuration. -/
  config : Option String := none
  /-- The number of errors at which to give up. -/
  maxErrors : Option Nat := none
  verbose : Bool := false
deriving DecidableEq, Repr

namespace Options

/-- The file with the tree, or the usual one. -/
def inputPath (o : Options) : String :=
  o.input.getD "main.yaml"

/-- The file for the image, or the usual one. -/
def outputPath (o : Options) : String :=
  o.output.getD "main.nes"

/-- An option that takes a value. -/
inductive Key where
  | output
  | config
  | maxErrors
deriving DecidableEq, Repr

/-- The option with the given long name. -/
def Key.ofName? : String → Option Key
  | "output" => some .output
  | "config" => some .config
  | "max-errors" => some .maxErrors
  | _ => none

/-- The option with the given letter. -/
def Key.ofLetter? : Char → Option Key
  | 'o' => some .output
  | 'c' => some .config
  | _ => none

/-- A count: decimal digits, perhaps after a plus sign, of a number below 2^64. -/
def count? (text : String) : Option Nat :=
  let digits := match text.toList with
    | '+' :: rest => rest
    | cs => cs
  if digits.isEmpty || !digits.all Char.isDigit then none
  else
    let n := digits.foldl (fun n c => 10 * n + (c.toNat - '0'.toNat)) 0
    if n < UInt64.size then some n else none

/-- Sets an option, which may be set only once. -/
def set? (o : Options) (key : Key) (value : String) : Option Options :=
  match key with
  | .output => if o.output.isSome then none else some { o with output := some value }
  | .config => if o.config.isSome then none else some { o with config := some value }
  | .maxErrors => do
    if o.maxErrors.isSome then none else return { o with maxErrors := some (← count? value) }

/-- Asks for verbose output, which may be done only once. -/
def setVerbose? (o : Options) : Option Options :=
  if o.verbose then none else some { o with verbose := true }

/-- Takes an argument that is no option: the file with the tree. -/
def setInput? (o : Options) (text : String) : Option Options :=
  if o.input.isSome then none else some { o with input := some text }

/-- Reads the letters of an argument. What is left over is an option that still needs a value. -/
def letters? (o : Options) : List Char → Option (Options × Option Key)
  | [] => some (o, none)
  | 'v' :: rest => do (← o.setVerbose?).letters? rest
  | letter :: rest => do
    let key ← Key.ofLetter? letter
    match rest with
    | [] => return (o, some key)
    | '=' :: value => return (← o.set? key (String.ofList value), none)
    | value => return (← o.set? key (String.ofList value), none)

/-- Reads an option with a long name. What is left over is an option that still needs a value. -/
def long? (o : Options) (text : String) : Option (Options × Option Key) := do
  match text.splitOn "=" with
  | ["verbose"] => return (← o.setVerbose?, none)
  | [name] => return (o, some (← Key.ofName? name))
  | name :: pieces => return (← o.set? (← Key.ofName? name) ("=".intercalate pieces), none)
  | [] => none

/-- Whether an argument can be the value of the option before it. -/
def isValue (text : String) : Bool :=
  !text.startsWith "-" || text == "-"

/-- Reads arguments. The option that still needs a value is given, and so is whether options may
still come. -/
def read? (pending : Option Key) (more : Bool) (o : Options) : List String → Option Options
  | [] => if pending.isSome then none else some o
  | text :: rest =>
    match pending with
    | some key => do
      if isValue text then read? none more (← o.set? key text) rest else none
    | none =>
      if !more || isValue text then do
        read? none more (← o.setInput? text) rest
      else if text == "--" then
        read? none false o rest
      else do
        let (o, pending) ←
          match text.toList with
          | '-' :: '-' :: name => o.long? (String.ofList name)
          | _ :: letters => o.letters? letters
          | [] => none
        read? pending more o rest

/-- The options that arguments ask for, if they are well formed. -/
def ofArguments? (arguments : List String) : Option Options :=
  read? none true {} arguments

end Options

end Cartridge
