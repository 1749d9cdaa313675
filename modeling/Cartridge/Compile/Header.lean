import Cartridge.Compile.Context

/-!
# The rom header

The header statement of a program is turned into the settings of its rom. Every problem with it
is reported before it is refused.

Main definitions:

- `SettingRule.all`: the settings that there are, with their ranges.
- `Header.resolve`: the settings that a header describes.
- `Header.install`: finds the one header of a program, and starts the rom that it describes.
-/

namespace Cartridge

/-- What is known of a setting beforehand. -/
structure SettingRule where
  name : String
  min : UInt16
  max : UInt16
  required : Bool := false
deriving DecidableEq, Repr

namespace SettingRule

/-- Every setting that there is. -/
def all : List SettingRule :=
  [{ name := "mapper", min := 0, max := 255, required := true },
    { name := "prg", min := 1, max := 255, required := true },
    { name := "chr", min := 1, max := 255, required := true },
    { name := "mirroring", min := 0, max := 1 },
    { name := "battery", min := 0, max := 1 },
    { name := "fourscreen", min := 0, max := 1 }]

/-- The setting of the given name. -/
def ofName? (name : String) : Option SettingRule :=
  all.find? fun rule => rule.name == name

/-- Whether a value is in the range of the setting. -/
def admits (rule : SettingRule) (value : UInt16) : Bool :=
  rule.min ≤ value && value ≤ rule.max

end SettingRule

/-- The settings of a header as far as they have been read. -/
structure Tally where
  /-- The settings in the order of their appearance; one without a value could not be folded. -/
  values : List (String × Option UInt16) := []
  /-- Whether no problem was found. -/
  valid : Bool := true
deriving DecidableEq, Repr

namespace Tally

/-- Whether a setting has appeared. -/
def mentions (tally : Tally) (name : String) : Bool :=
  tally.values.any fun entry => entry.1 == name

/-- The value of a setting; one that has not appeared is zero. -/
def value (tally : Tally) (name : String) : UInt16 :=
  ((tally.values.lookup name).join).getD 0

/-- The tally after a problem was found. -/
def spoiled (tally : Tally) : Tally :=
  { tally with valid := false }

/-- The tally after a setting was read. -/
def enter (tally : Tally) (name : String) (value : Option UInt16) (valid : Bool) : Tally where
  values := tally.values ++ [(name, value)]
  valid := tally.valid && valid

/-- The settings of the rom. -/
def settings (tally : Tally) : Settings where
  mapper := (tally.value "mapper").toUInt8
  prg := (tally.value "prg").toUInt8
  chr := (tally.value "chr").toUInt8
  mirroring := tally.value "mirroring" != 0
  battery := tally.value "battery" != 0
  fourscreen := tally.value "fourscreen" != 0

end Tally

namespace Header

/-- Reads one setting. -/
def readSetting (location : Location) (setting : Setting) (tally : Tally) : Pass Tally := do
  let name := setting.name.text
  match SettingRule.ofName? name with
  | none =>
    Run.error (.unknownSetting name) setting.name.pos
    return tally.spoiled
  | some rule =>
    if tally.mentions name then
      Run.error (.duplicateSetting name) setting.name.pos
      return tally.spoiled
    else
      match ← Pass.fold .early location setting.value with
      | none => return tally.enter name none false
      | some value =>
        if rule.admits value then
          return tally.enter name (some value) true
        else
          Run.error (.settingRange name value rule.min rule.max) setting.value.pos
          return tally.enter name (some value) false

/-- Reads the settings of a header from the one with the given index on. -/
def readSettings (location : Location) : Nat → List Setting → Tally → Pass Tally
  | _, [], tally => pure tally
  | index, setting :: rest, tally => do
    readSettings location (index + 1) rest (← readSetting (location.child index) setting tally)

/-- Reports the required settings that have not appeared. -/
def reportMissing (pos : Position) : List SettingRule → Tally → Pass Tally
  | [], tally => pure tally
  | rule :: rest, tally => do
    if rule.required && !tally.mentions rule.name then
      Run.error (.missingSetting rule.name) pos
      reportMissing pos rest tally.spoiled
    else
      reportMissing pos rest tally

/-- The settings that a header describes. A header with which anything is wrong is refused. -/
def resolve (location : Location) (header : Header) : Pass Settings := do
  let tally ← readSettings location 0 header.settings {}
  let tally ← reportMissing header.pos SettingRule.all tally
  if tally.valid then return tally.settings
  else Run.fatal .invalidHeader header.pos

/-- The headers among statements, with their indices from the given one on. -/
def indexed : Nat → List Statement → List (Nat × Header)
  | _, [] => []
  | index, .header h :: rest => (index, h) :: indexed (index + 1) rest
  | index, _ :: rest => indexed (index + 1) rest

/-- Finds the one header of a program, and starts the rom that it describes. Only constants may
stand before it. -/
def install (location : Location) (statements : List Statement) (pos : Position) : Pass Unit := do
  match indexed 0 statements with
  | [] => Run.fatal .missingHeader pos
  | _ :: (_, second) :: _ => Run.fatal .multipleHeaders second.pos
  | [(index, header)] =>
    match (statements.take index).find? fun s => !s.isConstant with
    | some early => Run.fatal .statementBeforeHeader early.pos
    | none =>
      let settings ← header.resolve (location.child index)
      Pass.note (.header settings)
      Run.update fun ctx => { ctx with rom := some (Rom.empty settings) }

/-- Refuses a header inside a block that is not the outermost one of a program. -/
def refuse (statements : List Statement) : Pass Unit := do
  match indexed 0 statements with
  | [] => pure ()
  | (_, header) :: _ => Run.fatal .headerInBlock header.pos

end Header

end Cartridge
