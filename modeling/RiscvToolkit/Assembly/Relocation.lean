import RiscvToolkit.Assembly.Error
import RiscvToolkit.Instruction.Pack
import RiscvToolkit.Memory.Basic

/-!
Relocations: places in memory that wait for the address of a label. `apply` puts an address in, either
as data or into the bits of an instruction word that are still zero.
-/
namespace RiscvToolkit.Assembly

inductive RelocationKind where
  | byte
  | half
  | word
  | dword
  /-- The upper 20 bits of the address. -/
  | upper
  /-- The upper 20 bits of the distance, rounded for the low part that follows. -/
  | upperRelative
  /-- The low 12 bits of the address. -/
  | low
  /-- The low 12 bits of the distance from the word before, as an immediate. -/
  | lowRelative
  /-- The low 12 bits of the distance from the word before, as the offset of a store. -/
  | lowRelativeStore
  | branch
  | jump
  deriving DecidableEq, Repr

structure Relocation where
  address : UInt32
  label : String
  kind : RelocationKind
  location : Location
  deriving DecidableEq, Repr

/-- The least and the greatest offset of a transfer. -/
def Transfer.reach : Transfer → Int × Int
  | branch => (-4096, 4094)
  | jump => (-1048576, 1048574)

/-- The distance from `address` to `target`, which must be even and within reach. -/
def transferOffset (transfer : Transfer) (address target : UInt32) : Except ErrorKind UInt32 :=
  let offset : Int := target.toNat - address.toNat
  let (least, greatest) := transfer.reach
  if offset % 2 ≠ 0 then .error .oddTarget
  else if offset < least ∨ greatest < offset then .error (.targetOutOfRange transfer offset)
  else .ok (target - address)

/-- The distance from the word before `address` to `target`. -/
def pairDistance (address target : UInt32) : UInt32 :=
  target - address + 4

/-- The bits to put into the instruction word at `address`; none for data. -/
def RelocationKind.bits (kind : RelocationKind) (address target : UInt32) :
    Except ErrorKind UInt32 :=
  match kind with
  | byte | half | word | dword => .ok 0
  | upper => .ok (target &&& 0xfffff000)
  | upperRelative => .ok (Pack.roundedUpper (target - address))
  | low => .ok ((target &&& 0xfff) <<< 20)
  | lowRelative => .ok ((pairDistance address target &&& 0xfff) <<< 20)
  | lowRelativeStore =>
    let distance := pairDistance address target &&& 0xfff
    .ok ((distance &&& 0x1f) <<< 7 ||| (distance >>> 5) <<< 25)
  | branch => (transferOffset .branch address target).map Pack.branchOffset
  | jump => (transferOffset .jump address target).map Pack.jumpOffset

/-- The width of the data that holds an address. -/
def RelocationKind.dataWidth? : RelocationKind → Option Width
  | byte => some .byte
  | half => some .half
  | word => some .word
  | dword => some .dword
  | _ => none

/-- The segment that an address is reported to be in. -/
def placeOf (address : UInt32) : Place :=
  if dataBase ≤ address.toNat then .data else .text

/-- Puts `target` into the place at `address`. -/
def RelocationKind.apply (kind : RelocationKind) (memory : Memory) (address target : UInt32) :
    Except ErrorKind Memory :=
  let overflow {α : Type} (result : Except AccessError α) : Except ErrorKind α :=
    result.mapError fun _ => .segmentOverflow (placeOf address)
  match kind.dataWidth? with
  | some width => overflow (memory.write width address.toUInt64 target.toUInt64)
  | none => do
    let bits ← kind.bits address target
    let word ← overflow (memory.readWord address.toUInt64)
    overflow (memory.writeWord address.toUInt64 (word ||| bits))

end RiscvToolkit.Assembly
