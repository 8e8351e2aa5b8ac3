import Mathlib
import RiscvToolkit.Console
import RiscvToolkit.Instruction.Basic

/-!
The base instructions of RV64I on bit vectors: how they are encoded and what they do. A state sees memory
as bytes at addresses, some of them mapped, and says nothing of how it is kept. Of the instruction set only
`jalr` differs, which keeps the lowest bit of its target; the environment calls are those of the host.
-/
namespace RiscvToolkit.Rv64

/-! ### Fields of a word -/

section
variable (w : BitVec 32)

def opcode : BitVec 7 := w.extractLsb' 0 7
def rd : Reg := (w.extractLsb' 7 5).toFin
def funct3 : BitVec 3 := w.extractLsb' 12 3
def rs1 : Reg := (w.extractLsb' 15 5).toFin
def rs2 : Reg := (w.extractLsb' 20 5).toFin
def funct7 : BitVec 7 := w.extractLsb' 25 7

/-- The part of the immediate that tells shifts apart. -/
def funct6 : BitVec 6 := w.extractLsb' 26 6

/-- The amount of a shift by an immediate. -/
def shamt : BitVec 6 := w.extractLsb' 20 6

def immI : BitVec 64 := (w.extractLsb' 20 12).signExtend 64

def immS : BitVec 64 := (w.extractLsb' 25 7 ++ w.extractLsb' 7 5).signExtend 64

def immB : BitVec 64 :=
  (w.extractLsb' 31 1 ++ w.extractLsb' 7 1 ++ w.extractLsb' 25 6 ++ w.extractLsb' 8 4 ++
    0#1).signExtend 64

def immU : BitVec 64 := (w.extractLsb' 12 20 ++ 0#12).signExtend 64

def immJ : BitVec 64 :=
  (w.extractLsb' 31 1 ++ w.extractLsb' 12 8 ++ w.extractLsb' 20 1 ++ w.extractLsb' 21 10 ++
    0#1).signExtend 64

end

/-! ### Encodings -/

/-- What an instruction does, without its operands. -/
inductive Operation where
  | arith (op : Arith)
  | arithImm (op : ArithImm)
  | load (op : Load)
  | store (op : Store)
  | branch (op : Branch)
  | jal | jalr | lui | auipc | ecall | ebreak
  deriving DecidableEq, Repr

/-- `funct7` and `funct3` of an operation on two registers. -/
def arithCode : Arith → BitVec 7 × BitVec 3
  | .add => (0b0000000, 0b000)
  | .sub => (0b0100000, 0b000)
  | .sll => (0b0000000, 0b001)
  | .slt => (0b0000000, 0b010)
  | .sltu => (0b0000000, 0b011)
  | .xor => (0b0000000, 0b100)
  | .srl => (0b0000000, 0b101)
  | .sra => (0b0100000, 0b101)
  | .or => (0b0000000, 0b110)
  | .and => (0b0000000, 0b111)

def loadCode : Load → BitVec 3
  | .lb => 0b000
  | .lh => 0b001
  | .lw => 0b010
  | .ld => 0b011
  | .lbu => 0b100
  | .lhu => 0b101

def storeCode : Store → BitVec 3
  | .sb => 0b000
  | .sh => 0b001
  | .sw => 0b010
  | .sd => 0b011

def branchCode : Branch → BitVec 3
  | .beq => 0b000
  | .bne => 0b001
  | .blt => 0b100
  | .bge => 0b101
  | .bltu => 0b110
  | .bgeu => 0b111

/-- True of the words that encode an operation. -/
def Encodes (w : BitVec 32) : Operation → Prop
  | .arith op => opcode w = 0b0110011 ∧ (funct7 w, funct3 w) = arithCode op
  | .arithImm .addi => opcode w = 0b0010011 ∧ funct3 w = 0b000
  | .arithImm .slti => opcode w = 0b0010011 ∧ funct3 w = 0b010
  | .arithImm .sltiu => opcode w = 0b0010011 ∧ funct3 w = 0b011
  | .arithImm .xori => opcode w = 0b0010011 ∧ funct3 w = 0b100
  | .arithImm .ori => opcode w = 0b0010011 ∧ funct3 w = 0b110
  | .arithImm .andi => opcode w = 0b0010011 ∧ funct3 w = 0b111
  | .arithImm .slli => opcode w = 0b0010011 ∧ funct3 w = 0b001 ∧ funct6 w = 0b000000
  | .arithImm .srli => opcode w = 0b0010011 ∧ funct3 w = 0b101 ∧ funct6 w = 0b000000
  | .arithImm .srai => opcode w = 0b0010011 ∧ funct3 w = 0b101 ∧ funct6 w = 0b010000
  | .arithImm .addiw => opcode w = 0b0011011 ∧ funct3 w = 0b000
  | .load op => opcode w = 0b0000011 ∧ funct3 w = loadCode op
  | .store op => opcode w = 0b0100011 ∧ funct3 w = storeCode op
  | .branch op => opcode w = 0b1100011 ∧ funct3 w = branchCode op
  | .jal => opcode w = 0b1101111
  | .jalr => opcode w = 0b1100111 ∧ funct3 w = 0b000
  | .lui => opcode w = 0b0110111
  | .auipc => opcode w = 0b0010111
  | .ecall => w = 0x00000073
  | .ebreak => w = 0x00100073

/-! ### Results -/

def arith (op : Arith) (a b : BitVec 64) : BitVec 64 :=
  match op with
  | .add => a + b
  | .sub => a - b
  | .sll => a <<< b.extractLsb' 0 6
  | .srl => a >>> b.extractLsb' 0 6
  | .sra => a.sshiftRight' (b.extractLsb' 0 6)
  | .slt => if a.slt b then 1 else 0
  | .sltu => if a.ult b then 1 else 0
  | .xor => a ^^^ b
  | .or => a ||| b
  | .and => a &&& b

def arithImm (op : ArithImm) (a : BitVec 64) (w : BitVec 32) : BitVec 64 :=
  match op with
  | .addi => a + immI w
  | .slti => if a.slt (immI w) then 1 else 0
  | .sltiu => if a.ult (immI w) then 1 else 0
  | .xori => a ^^^ immI w
  | .ori => a ||| immI w
  | .andi => a &&& immI w
  | .slli => a <<< shamt w
  | .srli => a >>> shamt w
  | .srai => a.sshiftRight' (shamt w)
  | .addiw => ((a + immI w).setWidth 32).signExtend 64

def taken (op : Branch) (a b : BitVec 64) : Bool :=
  match op with
  | .beq => a == b
  | .bne => a != b
  | .blt => a.slt b
  | .bge => b.sle a
  | .bltu => a.ult b
  | .bgeu => b.ule a

def loadSize : Load → Nat
  | .lb | .lbu => 1
  | .lh | .lhu => 2
  | .lw => 4
  | .ld => 8

def storeSize : Store → Nat
  | .sb => 1
  | .sh => 2
  | .sw => 4
  | .sd => 8

def extend (op : Load) {n : Nat} (value : BitVec n) : BitVec 64 :=
  match op with
  | .lb | .lh | .lw | .ld => value.signExtend 64
  | .lbu | .lhu => value.setWidth 64

/-! ### Memory -/

/-- The bytes at the addresses that are mapped. -/
abbrev Bytes := BitVec 64 → Option (BitVec 8)

def Mapped (mem : Bytes) (a : BitVec 64) (n : Nat) : Prop :=
  ∀ k < n, (mem (a + BitVec.ofNat 64 k)).isSome

/-- True of the number that `n` bytes spell, the least significant first. -/
def Holds (mem : Bytes) (a : BitVec 64) {n : Nat} (value : BitVec (8 * n)) : Prop :=
  ∀ k < n, mem (a + BitVec.ofNat 64 k) = some (value.extractLsb' (8 * k) 8)

/-- The low `n` bytes of a number put into memory. -/
def overwrite (mem : Bytes) (a : BitVec 64) (n : Nat) (value : BitVec 64) : Bytes := fun b =>
  if (b - a).toNat < n then some (value.extractLsb' (8 * (b - a).toNat) 8) else mem b

/-- True of the bytes before the first zero. -/
def Spells (mem : Bytes) (a : BitVec 64) : List (BitVec 8) → Prop
  | [] => mem a = some 0
  | byte :: rest => mem a = some byte ∧ byte ≠ 0 ∧ Spells mem (a + 1) rest

/-! ### Execution -/

structure State where
  pc : BitVec 64
  x : Reg → BitVec 64
  mem : Bytes
  halted : Bool

namespace State

/-- Register 0 keeps its value. -/
def put (s : State) (r : Reg) (value : BitVec 64) : State :=
  { s with x := if r = .zero then s.x else Function.update s.x r value }

def next (s : State) : State :=
  { s with pc := s.pc + 4 }

end State

/-- The next state, what the host is told, and whether a run may go on. -/
structure Effect where
  state : State
  events : List Event
  more : Bool

def quiet (s : State) : Effect := ⟨s, [], true⟩

def text (bytes : List (BitVec 8)) : String :=
  String.ofList (bytes.map fun b => Char.ofNat b.toNat)

/-- What an operation does with the operands in a word. -/
inductive Executes (w : BitVec 32) (s : State) : Operation → Effect → Prop
  | arith (op : Arith) :
      Executes w s (.arith op)
        (quiet (s.put (rd w) (arith op (s.x (rs1 w)) (s.x (rs2 w)))).next)
  | arithImm (op : ArithImm) :
      Executes w s (.arithImm op) (quiet (s.put (rd w) (arithImm op (s.x (rs1 w)) w)).next)
  | load (op : Load) (value : BitVec (8 * loadSize op))
      (h : Holds s.mem (s.x (rs1 w) + immI w) value) :
      Executes w s (.load op) (quiet (s.put (rd w) (extend op value)).next)
  | store (op : Store) (h : Mapped s.mem (s.x (rs1 w) + immS w) (storeSize op)) :
      Executes w s (.store op) (quiet { s.next with
        mem := overwrite s.mem (s.x (rs1 w) + immS w) (storeSize op) (s.x (rs2 w)) })
  | branch (op : Branch) :
      Executes w s (.branch op) (quiet { s with
        pc := s.pc + if taken op (s.x (rs1 w)) (s.x (rs2 w)) then immB w else 4 })
  | jal : Executes w s .jal (quiet { s.put (rd w) (s.pc + 4) with pc := s.pc + immJ w })
  | jalr :
      Executes w s .jalr (quiet { s.put (rd w) (s.pc + 4) with pc := s.x (rs1 w) + immI w })
  | lui : Executes w s .lui (quiet (s.put (rd w) (immU w)).next)
  | auipc : Executes w s .auipc (quiet (s.put (rd w) (s.pc + immU w)).next)
  | printNumber (h : s.x 17 = 1) :
      Executes w s .ecall ⟨s.next, [.output (toString (s.x 10).toInt)], true⟩
  | printString (h : s.x 17 = 4) (bytes : List (BitVec 8)) (ht : Spells s.mem (s.x 10) bytes) :
      Executes w s .ecall ⟨s.next, [.output (text bytes)], true⟩
  | exit (h : s.x 17 = 10) :
      Executes w s .ecall ⟨{ s.next with halted := true },
        [.output "\n-- program is finished running (0) --\n\n", .halted], false⟩
  | printCharacter (h : s.x 17 = 11) :
      Executes w s .ecall ⟨s.next, [.output (text [(s.x 10).setWidth 8])], true⟩
  | ebreak : Executes w s .ebreak ⟨s.next, [], false⟩

end RiscvToolkit.Rv64
