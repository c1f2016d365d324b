import Jyd.Hdl.Signal

/-!
# CommonDef — instruction classes and the payloads between pipeline stages

The bundles of `common_def.scala` that the core passes from fetch to execute,
the opcode decoder and the trimmed program counter.
-/

namespace Jyd
namespace Core

open Hdl

/-! ## Trimmed program counters -/

namespace TrimmedPC

/-- Rebuild `{12'h800, 3'b000, addr, 2'b00}`. -/
def expand (addr : BitVec 15) : Word :=
  0x800#12 ++ 0#3 ++ addr ++ 0#2

def trim (addr : Word) : BitVec 15 :=
  addr.extractLsb' 2 15

theorem expand_toNat (a : BitVec 15) : (expand a).toNat = 0x80000000 + 4 * a.toNat := by
  have ha := a.isLt
  simp only [expand, BitVec.toNat_append, BitVec.toNat_ofNat, Nat.shiftLeft_eq]
  have h1 : (0x800 % 2 ^ 12 * 2 ^ 3 ||| 0 % 2 ^ 3) = 16384 := by decide
  have h2 : 16384 * 2 ^ 15 ||| a.toNat = 16384 * 2 ^ 15 + a.toNat := by
    rw [← Nat.shiftLeft_eq, ← Nat.shiftLeft_add_eq_or_of_lt ha]
  have h3 : (16384 * 2 ^ 15 + a.toNat) * 2 ^ 2 ||| 0 % 2 ^ 2 =
      (16384 * 2 ^ 15 + a.toNat) * 2 ^ 2 := by simp
  rw [h1, h2, h3]
  omega

theorem trim_expand (a : BitVec 15) : trim (expand a) = a := by
  apply BitVec.eq_of_toNat_eq
  have ha := a.isLt
  simp only [trim, BitVec.extractLsb'_toNat, Nat.shiftRight_eq_div_pow, expand_toNat]
  omega

end TrimmedPC

/-! ## Instruction classes -/

inductive InstFmt
  | imm
  | reg
  | store
  | upper
  | jump
  | branch
  deriving DecidableEq, Repr

inductive InstType
  | branch
  | arithmetic
  | load
  | store
  | jalr
  | jal
  | lui
  | auipc
  | system
  deriving DecidableEq, Repr

inductive ResultKind
  | fastInt
  | direct
  | longArithmetic
  | accelerator
  | load
  deriving DecidableEq, Repr

structure InstMetaInfo where
  fmt : InstFmt
  typ : InstType
  deriving DecidableEq, Repr

/-- The opcode table; an opcode outside it has no defined class. -/
def InstInfoDecoder (opcode : BitVec 7) : Option InstMetaInfo :=
  match opcode.extractLsb' 2 5 with
  | 0b00000#5 => some ⟨.imm, .load⟩
  | 0b00100#5 => some ⟨.imm, .arithmetic⟩
  | 0b00010#5 => some ⟨.reg, .arithmetic⟩
  | 0b11001#5 => some ⟨.imm, .jalr⟩
  | 0b11100#5 => some ⟨.imm, .system⟩
  | 0b01100#5 => some ⟨.reg, .arithmetic⟩
  | 0b01000#5 => some ⟨.store, .store⟩
  | 0b01101#5 => some ⟨.upper, .lui⟩
  | 0b00101#5 => some ⟨.upper, .auipc⟩
  | 0b11011#5 => some ⟨.jump, .jal⟩
  | 0b11000#5 => some ⟨.branch, .branch⟩
  | 0b10110#5 => some ⟨.reg, .arithmetic⟩
  | _ => none

/-! ## Stage payloads -/

structure PredBundle where
  pc : Word
  hit : Bool
  take : Bool
  deriving DecidableEq, Repr

structure FetchedInst where
  code : Word
  pc : Word
  iid : BitVec 32
  epoch : Bool
  pred : PredBundle
  deriving DecidableEq, Repr

structure DecodedInstInfo extends InstMetaInfo where
  imm : Word
  rd : BitVec 5
  rs1 : BitVec 5
  rs2 : BitVec 5
  rdWrEn : Bool
  reg1 : Word
  reg2 : Word
  staticNextPCOrCSRTarget : Word
  pcAddImm : Word
  reg1AddImm : BitVec 22
  lateLoadRs1 : Bool
  lateLoadRs2 : Bool
  fastAluRs1 : BitVec 8
  fastAluRs2 : BitVec 8
  fastBranchRs1 : BitVec 8
  fastBranchRs2 : BitVec 8
  fastStoreRs2 : BitVec 8
  adjacentFastBranch : Bool
  resultKind : ResultKind
  bExtValid : Bool
  crcValid : Bool
  xbmulValid : Bool
  listReverseValid : Bool
  listReverseStep : Bool
  listReverseLoop : Bool
  xmsumValid : Bool
  numericDfaValid : Bool
  aluIsSub : Bool
  isECall : Bool
  isMRet : Bool
  is_beq : Bool
  is_bne : Bool
  is_blt : Bool
  is_bge : Bool
  is_bltu : Bool
  is_bgeu : Bool
  notBranchPredWrong : Bool
  preMuxWrBackData : Word
  deriving DecidableEq, Repr

structure DecodedInst where
  code : Word
  pc : Word
  iid : BitVec 32
  epoch : Bool
  predTake : Bool
  info : DecodedInstInfo
  deriving DecidableEq, Repr

/-! ## Forwarding bundles -/

structure WrBackForwardInfo where
  addr : BitVec 5
  enWr : Bool
  dataVaild : Bool
  data : Word
  kind : ResultKind
  deriving DecidableEq, Repr

structure LateLoadSourceInfo where
  valid : Bool
  dataValid : Bool
  data : Word
  rawData : Word
  func3t : BitVec 3
  offset : BitVec 2
  deriving DecidableEq, Repr

/-! ## The data-bus request -/

structure MemReq where
  addr : Word
  size : BitVec 3
  wen : Bool
  wdata : Word
  wmask : BitVec 4
  deriving DecidableEq, Repr

end Core
end Jyd
