import Cartridge.Proofs.Allocation
import Cartridge.Proofs.Footprint

/-!
# Reading an image

An image is a header of sixteen bytes and one block for each bank. The header alone says how many
blocks follow it. So an image can be taken apart again, and what is read from it is what the rom
held when it was written.

Main definitions:

- `Settings.ofHeader?`: the settings that a header says.
- `Image`: the settings, and the contents of as many banks as they ask for.
- `Image.ofBytes?`: what bytes say if they are read as an image.

Main results:

- Theorem `Settings.ofHeader?_header`: settings are read back from their header.
- Theorem `Image.blocks?_flatMap`: blocks are read back from their bytes.
- Theorem `Rom.Operation.whole_performAll`: there are always as many banks as the settings ask for.
- Theorem `Rom.toBytes_reads_back`: a rom is read back from its image.
-/

namespace Cartridge

/-! ## The header -/

namespace Settings

/-- The settings that a header says. It starts with the magic bytes and ends with eight zeros. In
between are the two sizes and two flag bytes: the first one has a bit for each flag and the low half
of the mapper number, the second one has the high half. -/
def ofHeader? (header : List UInt8) : Option Settings :=
  if header.take 4 = magic ∧ header.drop 8 = List.replicate 8 0 then
    match header.drop 4 with
    | prg :: chr :: low :: high :: _ =>
      some
        { mapper := low >>> 4 ||| high <<< 4
          prg
          chr
          mirroring := low.toBitVec.getLsbD 0
          battery := low.toBitVec.getLsbD 1
          fourscreen := low.toBitVec.getLsbD 3 }
    | _ => none
  else none

/-- The flag bits do not reach into the half of the byte that belongs to the mapper number. -/
theorem mapper_of_flags (s : Settings) : s.flags >>> 4 ||| s.mapper >>> 4 <<< 4 = s.mapper := by
  apply UInt8.toBitVec_inj.1
  apply BitVec.eq_of_getElem_eq
  intro i hi
  have hbit : i = 0 ∨ i = 1 ∨ i = 2 ∨ i = 3 ∨ i = 4 ∨ i = 5 ∨ i = 6 ∨ i = 7 := by omega
  rcases hbit with rfl | rfl | rfl | rfl | rfl | rfl | rfl | rfl <;> simp [flags]

/-- Every flag has its own bit. -/
theorem getLsbD_flags (s : Settings) :
    s.flags.toBitVec.getLsbD 0 = s.mirroring ∧ s.flags.toBitVec.getLsbD 1 = s.battery ∧
      s.flags.toBitVec.getLsbD 3 = s.fourscreen := by
  simp [flags]

/-- Settings are read back from their header. -/
theorem ofHeader?_header (s : Settings) : ofHeader? s.header = some s := by
  obtain ⟨hmirroring, hbattery, hfourscreen⟩ := s.getLsbD_flags
  have hends : s.header.take 4 = magic ∧ s.header.drop 8 = List.replicate 8 0 := ⟨rfl, rfl⟩
  have hmiddle : s.header.drop 4 =
      s.prg :: s.chr :: s.flags :: s.mapper >>> 4 :: List.replicate 8 0 := rfl
  unfold ofHeader?
  rw [if_pos hends]
  simp only [hmiddle, mapper_of_flags, hmirroring, hbattery, hfourscreen]

end Settings

/-! ## The banks -/

/-- What an image says: the settings of a rom, and the contents of as many banks as they ask for. -/
structure Image where
  settings : Settings
  banks : List (Vector UInt8 bankSize)
  count : banks.length = settings.bankCount

namespace Image

/-- The contents of so many banks, if the bytes are just these. -/
def blocks? : (n : Nat) → List UInt8 →
    Option { blocks : List (Vector UInt8 bankSize) // blocks.length = n }
  | 0, [] => some ⟨[], rfl⟩
  | 0, _ :: _ => none
  | n + 1, bytes =>
    if h : (bytes.take bankSize).length = bankSize then
      (blocks? n (bytes.drop bankSize)).map fun rest =>
        ⟨⟨(bytes.take bankSize).toArray, h⟩ :: rest.1, congrArg Nat.succ rest.2⟩
    else none

/-- What bytes say if they are read as an image. The number of banks is known from the header. -/
def ofBytes? (bytes : List UInt8) : Option Image :=
  (Settings.ofHeader? (bytes.take 16)).bind fun settings =>
    (blocks? settings.bankCount (bytes.drop 16)).map fun blocks =>
      { settings, banks := blocks.1, count := blocks.2 }

/-- Blocks are read back from their bytes. -/
theorem blocks?_flatMap {blocks : List (Vector UInt8 bankSize)} {n : Nat}
    (h : blocks.length = n) : blocks? n (blocks.flatMap Vector.toList) = some ⟨blocks, h⟩ := by
  induction blocks generalizing n with
  | nil =>
    subst h
    rfl
  | cons block rest ih =>
    obtain ⟨m, rfl⟩ : ∃ m, n = m + 1 := ⟨rest.length, h.symm⟩
    have hlength : block.toList.length = bankSize := Vector.length_toList
    have htake : (block.toList ++ rest.flatMap Vector.toList).take bankSize = block.toList :=
      List.take_left' hlength
    have hdrop : (block.toList ++ rest.flatMap Vector.toList).drop bankSize =
        rest.flatMap Vector.toList := List.drop_left' hlength
    rw [List.flatMap_cons, blocks?]
    simp only [htake, hdrop, ih (Nat.succ.inj h), Option.map_some]
    rw [dif_pos hlength]
    rfl

end Image

/-! ## Roms -/

namespace Rom

/-- There are as many banks as the settings ask for. -/
def Whole (rom : Rom) : Prop :=
  rom.banks.size = rom.settings.bankCount

/-- What the image of a rom says. -/
def image (rom : Rom) (h : rom.Whole) : Image where
  settings := rom.settings
  banks := rom.banks.toList.map Bank.data
  count := by rw [List.length_map, Array.length_toList, h]

/-- The image of a rom depends on its settings and on the contents of its banks only. -/
theorem toBytes_eq (rom : Rom) : rom.toBytes =
    rom.settings.header ++ (rom.banks.toList.map Bank.data).flatMap Vector.toList := by
  rw [List.flatMap_map]
  rfl

/-- The first sixteen bytes say the settings. -/
theorem ofHeader?_toBytes (rom : Rom) :
    Settings.ofHeader? (rom.toBytes.take 16) = some rom.settings := by
  rw [toBytes_eq, List.take_left' rom.settings.length_header, Settings.ofHeader?_header]

/-- What is read from the image of a rom. -/
theorem ofBytes?_toBytes {rom : Rom} (h : rom.Whole) :
    Image.ofBytes? rom.toBytes = some (rom.image h) := by
  have hbanks : rom.toBytes.drop 16 = (rom.banks.toList.map Bank.data).flatMap Vector.toList := by
    rw [toBytes_eq, List.drop_left' rom.settings.length_header]
  have hblocks : Image.blocks? rom.settings.bankCount
      ((rom.banks.toList.map Bank.data).flatMap Vector.toList) = some ⟨_, (rom.image h).count⟩ :=
    Image.blocks?_flatMap (rom.image h).count
  unfold Image.ofBytes?
  rw [ofHeader?_toBytes, Option.bind_some, hbanks, hblocks]
  rfl

namespace Operation

open Run.Frame

/-- An operation changes neither the settings nor the number of banks, however it ends. -/
theorem keeping_perform (op : Operation) (pos : Position) :
    (keeping fun rom : Rom => (rom.settings, rom.banks.size)).Holds (op.perform pos) := by
  have hreports : ∀ e : Error, e.isInternal = false →
      (keeping fun rom : Rom => (rom.settings, rom.banks.size)).Reports e :=
    fun e _ => reports_keeping e
  cases op with
  | switchBank index => exact holds_switchBank hreports (fun _ _ => rfl) index pos
  | moveRam address => exact holds_update fun _ => rfl
  | expandRam amount => exact holds_expandRam hreports (fun _ _ => rfl) amount pos
  | rewind =>
    refine holds_update fun s => ?_
    show (s.state.settings, (s.state.banks.map Bank.rewind).size) = _
    rw [Array.size_map]
  | bank op =>
    refine holds_read_bind fun rom => ?_
    split
    · exact holds_pure _ _
    · have hbank : (keeping fun _ : Bank => ()).Holds (op.perform pos) := by
        intro s
        cases op.perform pos s <;> rfl
      refine keeping_focus (fun rom b _ => ?_) hbank
      show (rom.settings, (rom.banks.setIfInBounds _ b).size) = _
      rw [Array.size_setIfInBounds]

/-- Whatever is done to a new rom, it keeps its settings, and it has as many banks as they ask
for. -/
theorem whole_performAll (settings : Settings) (ops : List (Operation × Position)) (log : Log) :
    ((performAll ops).stateAfter { state := Rom.empty settings, log }).settings = settings ∧
      ((performAll ops).stateAfter { state := Rom.empty settings, log }).Whole := by
  have hkeeps : (keeping fun rom : Rom => (rom.settings, rom.banks.size)).Holds
      (performAll ops) := by
    induction ops with
    | nil => exact holds_pure _ _
    | cons first rest ih => exact holds_bind (keeping_perform first.1 first.2) fun _ => ih
  have hview := Prod.mk.inj (hkeeps.keeps { state := Rom.empty settings, log })
  refine ⟨hview.1, ?_⟩
  unfold Whole
  rw [hview.1, hview.2]
  exact size_empty settings

end Operation

/-- A rom is read back from its image: the settings and the number of banks from the first sixteen
bytes alone, and the contents of every bank, in order, from the rest. So two roms have the same
image only if they have the same settings and their banks have the same contents. -/
theorem toBytes_reads_back {rom : Rom} (h : rom.Whole) :
    Settings.ofHeader? (rom.toBytes.take 16) = some rom.settings ∧
      rom.toBytes.length = 16 + 8192 * (2 * rom.settings.prg.toNat + rom.settings.chr.toNat) ∧
      (∃ image, Image.ofBytes? rom.toBytes = some image ∧ image.settings = rom.settings ∧
        image.banks = rom.banks.toList.map Bank.data) ∧
      ∀ other : Rom, other.Whole → (other.toBytes = rom.toBytes ↔
        other.settings = rom.settings ∧
          other.banks.toList.map Bank.data = rom.banks.toList.map Bank.data) := by
  refine ⟨rom.ofHeader?_toBytes, ?_, ⟨rom.image h, ofBytes?_toBytes h, rfl, rfl⟩,
    fun other ho => ⟨fun heq => ?_, ?_⟩⟩
  · rw [rom.length_toBytes, h, Settings.bankCount, Nat.mul_comm 2]
    rfl
  · have hread := ofBytes?_toBytes ho
    rw [heq, ofBytes?_toBytes h] at hread
    have himage : rom.image h = other.image ho := Option.some.inj hread
    exact ⟨congrArg Image.settings himage.symm, congrArg Image.banks himage.symm⟩
  · rintro ⟨hsettings, hbanks⟩
    rw [toBytes_eq, toBytes_eq, hsettings, hbanks]

/-- A rom with all its flags set, in which bytes were written over others. -/
theorem toBytes_reads_back_overlapping :
    let settings : Settings :=
      { mapper := 0xA5, prg := 1, chr := 1, mirroring := true, battery := true, fourscreen := true }
    let rom := (Operation.performAll Operation.overlapping).stateAfter
      { state := Rom.empty settings, log := .empty 5 }
    rom.Whole ∧ Settings.ofHeader? (rom.toBytes.take 16) = some settings ∧
      ∃ image, Image.ofBytes? rom.toBytes = some image ∧
        image.banks = rom.banks.toList.map Bank.data := by
  intro settings rom
  have hkept : rom.settings = settings ∧ rom.Whole := Operation.whole_performAll settings _ _
  obtain ⟨hheader, -, ⟨image, hread, -, hbanks⟩, -⟩ := toBytes_reads_back hkept.2
  rw [hkept.1] at hheader
  exact ⟨hkept.2, hheader, image, hread, hbanks⟩

end Rom

end Cartridge
