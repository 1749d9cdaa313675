import Cartridge.Diagnostic.Error

/-!
# The diagnostic log

What a compilation reports, in order. Recoverable errors and fatal ones are
counted; once the count reaches the limit, a closing entry says so. The closing entry is listed
but not counted.

Main results:

- Theorems `Log.count_soft`, `Log.count_fatal`, `Log.count_giveUp`: what each report adds to the
  count.
-/

namespace Cartridge

/-- One entry of the log. -/
structure Diagnostic where
  fatal : Bool
  /-- Where the cause is; only the closing entry has no position. -/
  pos : Option Position
  error : Error
deriving DecidableEq, Repr

namespace Diagnostic

/-- What the entry says, without its position. -/
def message (d : Diagnostic) : String :=
  d.error.message

/-- The entry on one line. -/
def text (d : Diagnostic) : String :=
  let place := match d.pos with
    | some pos => pos.text ++ ": "
    | none => ""
  (if d.fatal then "fatal: " else "") ++ place ++ d.message

end Diagnostic

/-- The entries so far, with the number of errors among them and the limit on that number. -/
structure Log where
  limit : Nat
  count : Nat := 0
  entries : List Diagnostic := []
deriving DecidableEq, Repr

namespace Log

/-- An empty log. A limit of zero acts as one. -/
def empty (errorLimit : Nat) : Log :=
  { limit := max errorLimit 1 }

/-- Whether nothing was reported. -/
def isClean (log : Log) : Bool :=
  log.count == 0

/-- Whether the limit is reached. -/
def isFull (log : Log) : Bool :=
  log.limit ≤ log.count

/-- Adds a recoverable error. -/
def soft (log : Log) (error : Error) (pos : Position) : Log :=
  { log with
    count := log.count + 1
    entries := log.entries ++ [{ fatal := false, pos := some pos, error }] }

/-- Adds an error that ends the compilation. -/
def fatal (log : Log) (error : Error) (pos : Position) : Log :=
  { log with
    count := log.count + 1
    entries := log.entries ++ [{ fatal := true, pos := some pos, error }] }

/-- Adds the closing entry. -/
def giveUp (log : Log) : Log :=
  { log with
    entries := log.entries ++
      [{ fatal := true, pos := none, error := .tooManyErrors log.count }] }

@[simp] theorem count_soft (log : Log) (error : Error) (pos : Position) :
    (log.soft error pos).count = log.count + 1 :=
  rfl

@[simp] theorem count_fatal (log : Log) (error : Error) (pos : Position) :
    (log.fatal error pos).count = log.count + 1 :=
  rfl

@[simp] theorem count_giveUp (log : Log) : log.giveUp.count = log.count :=
  rfl

@[simp] theorem limit_soft (log : Log) (error : Error) (pos : Position) :
    (log.soft error pos).limit = log.limit :=
  rfl

@[simp] theorem limit_fatal (log : Log) (error : Error) (pos : Position) :
    (log.fatal error pos).limit = log.limit :=
  rfl

@[simp] theorem limit_giveUp (log : Log) : log.giveUp.limit = log.limit :=
  rfl

end Log

end Cartridge
