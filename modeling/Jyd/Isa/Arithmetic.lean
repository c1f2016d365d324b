import Jyd.Hdl.CarryLess
import Jyd.Hdl.Groups
import Jyd.Isa.MExtension

/-!
# Arithmetic — the OP and OP-IMM instructions of RV32IM with bit manipulation

An instruction is named by its operation; `encoding` lists the fields that identify it
and `result` the word it writes, as a function of `rs1` and of `rs2` or the immediate.
-/

namespace Jyd
namespace Isa

open Hdl

/-! ## Encodings -/

/-- The fields that identify an instruction; `rs2` does so for the unary operations. -/
structure Encoding where
  immediate : Bool
  func3 : BitVec 3
  func7 : Option (BitVec 7)
  rs2 : Option (BitVec 5)
  deriving DecidableEq, Repr

namespace Encoding

def opcode (e : Encoding) : BitVec 7 := if e.immediate then 0b0010011 else 0b0110011

structure Matches (e : Encoding) (inst : Word) : Prop where
  opcode : inst.extractLsb' 0 7 = e.opcode
  func3 : inst.extractLsb' 12 3 = e.func3
  func7 : ∀ f ∈ e.func7, inst.extractLsb' 25 7 = f
  rs2 : ∀ s ∈ e.rs2, inst.extractLsb' 20 5 = s

/-- A register form. -/
def reg (func7 : BitVec 7) (func3 : BitVec 3) : Encoding := ⟨false, func3, some func7, none⟩

/-- An immediate form that uses all twelve bits of the immediate. -/
def imm (func3 : BitVec 3) : Encoding := ⟨true, func3, none, none⟩

/-- An immediate form with a five-bit operand. -/
def shift (func7 : BitVec 7) (func3 : BitVec 3) : Encoding := ⟨true, func3, some func7, none⟩

/-- An immediate form without a second operand. -/
def unary (func7 : BitVec 7) (func3 : BitVec 3) (rs2 : BitVec 5) : Encoding :=
  ⟨true, func3, some func7, some rs2⟩

section Fields

variable {inst : Word} {func7 : BitVec 7} {func3 : BitVec 3} {rs2 : BitVec 5}

theorem Matches.reg (hop : inst.extractLsb' 0 7 = 0b0110011) (h7 : inst.extractLsb' 25 7 = func7)
    (h3 : inst.extractLsb' 12 3 = func3) : (Encoding.reg func7 func3).Matches inst :=
  ⟨hop, h3, fun _ hf => Option.mem_some_iff.mp hf ▸ h7, fun _ hs => absurd hs (Option.not_mem_none _)⟩

theorem Matches.imm (hop : inst.extractLsb' 0 7 = 0b0010011) (h3 : inst.extractLsb' 12 3 = func3) :
    (Encoding.imm func3).Matches inst :=
  ⟨hop, h3, fun _ hf => absurd hf (Option.not_mem_none _),
    fun _ hs => absurd hs (Option.not_mem_none _)⟩

theorem Matches.shift (hop : inst.extractLsb' 0 7 = 0b0010011) (h7 : inst.extractLsb' 25 7 = func7)
    (h3 : inst.extractLsb' 12 3 = func3) : (Encoding.shift func7 func3).Matches inst :=
  ⟨hop, h3, fun _ hf => Option.mem_some_iff.mp hf ▸ h7, fun _ hs => absurd hs (Option.not_mem_none _)⟩

theorem Matches.unary (hop : inst.extractLsb' 0 7 = 0b0010011) (h7 : inst.extractLsb' 25 7 = func7)
    (h3 : inst.extractLsb' 12 3 = func3) (h5 : inst.extractLsb' 20 5 = rs2) :
    (Encoding.unary func7 func3 rs2).Matches inst :=
  ⟨hop, h3, fun _ hf => Option.mem_some_iff.mp hf ▸ h7, fun _ hs => Option.mem_some_iff.mp hs ▸ h5⟩

end Fields

end Encoding

/-- The low five bits of an operand, as a bit position. -/
def index (b : Word) : ℕ := b.toNat % 32

def ofCondition (p : Prop) [Decidable p] : Word := if p then 1 else 0

/-! ## RV32I -/

inductive IntOp
  | add
  | sub
  | sll
  | slt
  | sltu
  | xor
  | srl
  | sra
  | or
  | and
  deriving DecidableEq, Repr

namespace IntOp

def encoding : IntOp → Encoding
  | add => .reg 0b0000000 0b000
  | sub => .reg 0b0100000 0b000
  | sll => .reg 0b0000000 0b001
  | slt => .reg 0b0000000 0b010
  | sltu => .reg 0b0000000 0b011
  | xor => .reg 0b0000000 0b100
  | srl => .reg 0b0000000 0b101
  | sra => .reg 0b0100000 0b101
  | or => .reg 0b0000000 0b110
  | and => .reg 0b0000000 0b111

def result (op : IntOp) (a b : Word) : Word :=
  match op with
  | add => a + b
  | sub => a - b
  | sll => a <<< index b
  | slt => ofCondition (a.toInt < b.toInt)
  | sltu => ofCondition (a.toNat < b.toNat)
  | xor => a ^^^ b
  | srl => a >>> index b
  | sra => a.sshiftRight (index b)
  | or => a ||| b
  | and => a &&& b

end IntOp

inductive IntImmOp
  | addi
  | slli
  | slti
  | sltiu
  | xori
  | srli
  | srai
  | ori
  | andi
  deriving DecidableEq, Repr

namespace IntImmOp

def encoding : IntImmOp → Encoding
  | addi => .imm 0b000
  | slli => .shift 0b0000000 0b001
  | slti => .imm 0b010
  | sltiu => .imm 0b011
  | xori => .imm 0b100
  | srli => .shift 0b0000000 0b101
  | srai => .shift 0b0100000 0b101
  | ori => .imm 0b110
  | andi => .imm 0b111

/-- The operation on two registers that computes the same. -/
def toIntOp : IntImmOp → IntOp
  | addi => .add
  | slli => .sll
  | slti => .slt
  | sltiu => .sltu
  | xori => .xor
  | srli => .srl
  | srai => .sra
  | ori => .or
  | andi => .and

end IntImmOp

/-! ## Bit manipulation -/

inductive BOp
  | clz
  | ctz
  | cpop
  | clmul
  | clmulh
  | orcB
  | xperm4
  | ror
  | rori
  | pack
  | sh1add
  | sh2add
  | sh3add
  | sextB
  | sextH
  | minu
  | bext
  | bexti
  | bset
  | bseti
  | bclr
  | bclri
  | binv
  | binvi
  | andn
  | orn
  | xnor
  | max
  | maxu
  | min
  | rol
  | rev8
  deriving DecidableEq, Repr

namespace BOp

def encoding : BOp → Encoding
  | clz => .unary 0b0110000 0b001 0b00000
  | ctz => .unary 0b0110000 0b001 0b00001
  | cpop => .unary 0b0110000 0b001 0b00010
  | clmul => .reg 0b0000101 0b001
  | clmulh => .reg 0b0000101 0b011
  | orcB => .unary 0b0010100 0b101 0b00111
  | xperm4 => .reg 0b0010100 0b010
  | ror => .reg 0b0110000 0b101
  | rori => .shift 0b0110000 0b101
  | pack => .reg 0b0000100 0b100
  | sh1add => .reg 0b0010000 0b010
  | sh2add => .reg 0b0010000 0b100
  | sh3add => .reg 0b0010000 0b110
  | sextB => .unary 0b0110000 0b001 0b00100
  | sextH => .unary 0b0110000 0b001 0b00101
  | minu => .reg 0b0000101 0b101
  | bext => .reg 0b0100100 0b101
  | bexti => .shift 0b0100100 0b101
  | bset => .reg 0b0010100 0b001
  | bseti => .shift 0b0010100 0b001
  | bclr => .reg 0b0100100 0b001
  | bclri => .shift 0b0100100 0b001
  | binv => .reg 0b0110100 0b001
  | binvi => .shift 0b0110100 0b001
  | andn => .reg 0b0100000 0b111
  | orn => .reg 0b0100000 0b110
  | xnor => .reg 0b0100000 0b100
  | max => .reg 0b0000101 0b110
  | maxu => .reg 0b0000101 0b111
  | min => .reg 0b0000101 0b100
  | rol => .reg 0b0110000 0b001
  | rev8 => .unary 0b0110100 0b101 0b11000

/-- The carry-less product of two words, in twice their width. -/
def carryLess (a b : Word) : BitVec 64 := CarryLess.product (a.setWidth 64) b

def result (op : BOp) (a b : Word) : Word :=
  match op with
  | clz => a.clz
  | ctz => a.ctz
  | cpop => a.cpop
  | clmul => (carryLess a b).extractLsb' 0 32
  | clmulh => (carryLess a b).extractLsb' 32 32
  | orcB => ofBytes fun k => if byteOf a k = 0 then 0 else BitVec.allOnes 8
  | xperm4 =>
    ofNibbles fun k => if (group 4 b k).toNat < 8 then group 4 a (group 4 b k).toNat else 0
  | ror | rori => a.rotateRight (index b)
  | pack => b.extractLsb' 0 16 ++ a.extractLsb' 0 16
  | sh1add => b + a <<< 1
  | sh2add => b + a <<< 2
  | sh3add => b + a <<< 3
  | sextB => (a.extractLsb' 0 8).signExtend 32
  | sextH => (a.extractLsb' 0 16).signExtend 32
  | minu => if a.toNat < b.toNat then a else b
  | bext | bexti => ofCondition (a.getLsbD (index b) = true)
  | bset | bseti => a ||| 1#32 <<< index b
  | bclr | bclri => a &&& ~~~(1#32 <<< index b)
  | binv | binvi => a ^^^ 1#32 <<< index b
  | andn => a &&& ~~~b
  | orn => a ||| ~~~b
  | xnor => ~~~(a ^^^ b)
  | max => if a.toInt < b.toInt then b else a
  | maxu => if a.toNat < b.toNat then b else a
  | min => if a.toInt < b.toInt then a else b
  | rol => a.rotateLeft (index b)
  | rev8 => ofBytes fun k => byteOf a (3 - k)

end BOp

/-! ## All of them -/

inductive ArithOp
  | int (op : IntOp)
  | intImm (op : IntImmOp)
  | mul (op : MulOp)
  | div (op : DivOp)
  | bit (op : BOp)
  deriving DecidableEq, Repr

namespace ArithOp

def encoding : ArithOp → Encoding
  | int op => op.encoding
  | intImm op => op.encoding
  | mul op => .reg 0b0000001 op.func3t
  | div op => .reg 0b0000001 op.func3t
  | bit op => op.encoding

def result (op : ArithOp) (a b : Word) : Word :=
  match op with
  | int op => op.result a b
  | intImm op => op.toIntOp.result a b
  | mul op => op.result a b
  | div op => op.result a b
  | bit op => op.result a b

/-- The second operand: the sign-extended immediate or the register. -/
def operand2 (op : ArithOp) (inst rs2 : Word) : Word :=
  if op.encoding.immediate then (inst.extractLsb' 20 12).signExtend 32 else rs2

end ArithOp

end Isa
end Jyd
