import Jyd.Hdl.XorLinear
import Jyd.Nemu.Crc
import Jyd.Soc.AddressMap

/-!
# Crc — the CRC instruction and the functions that use it

The parallel matrix of the special cluster and the eight rounds of the bit-serial register
are both linear in the 24 input bits, so they are compared on the single bits.  From there
the agreement extends to messages of any length and to the wrappers around the instruction.
-/

namespace Jyd
namespace Coremark

open Hdl Jyd.Core Nemu

/-! ## The matrix -/

theorem crcShift_linear {n : ℕ} {f : BitVec n → BitVec 16} {b : BitVec n → Bool}
    (hf : XorLinear f) (hb : XorLinearBit b) : XorLinear fun x => crcShift (f x) (b x) := by
  have hshift : XorLinear fun x : BitVec 16 => x >>> 1 :=
    fun _ _ => BitVec.ushiftRight_xor_distrib _ _ _
  exact (hshift.comp hf).xor
    (xorLinear_ite (hb.xor ((xorLinearBit_getLsbD 0).comp hf)) 0xa001#16)

theorem crcStream_linear {n : ℕ} (bits : List (BitVec n → Bool)) :
    (∀ b ∈ bits, XorLinearBit b) → ∀ {f : BitVec n → BitVec 16}, XorLinear f →
      XorLinear fun x => crcStream (f x) (bits.map fun b => b x) := by
  induction bits with
  | nil => exact fun _ _ hf => hf
  | cons b bits ih =>
    intro hbits f hf
    exact ih (fun c hc => hbits c (List.mem_cons_of_mem b hc))
      (crcShift_linear hf (hbits b List.mem_cons_self))

/-- Eight rounds on a byte above a register. -/
def serialByte (x : BitVec 24) : BitVec 16 :=
  crcStream (x.extractLsb' 0 16) (byteBits (x.extractLsb' 16 8))

theorem serialByte_linear : XorLinear serialByte := by
  have hbits : ∀ b ∈ (List.range 8).map fun k => fun x : BitVec 24 =>
      (x.extractLsb' 16 8).getLsbD k, XorLinearBit b := by
    intro b hb
    obtain ⟨k, -, rfl⟩ := List.mem_map.mp hb
    exact (xorLinearBit_getLsbD k).comp (xorLinear_extract 16)
  have hlinear := crcStream_linear _ hbits (xorLinear_extract (m := 16) 0)
  show XorLinear fun x : BitVec 24 => crcStream (x.extractLsb' 0 16)
    ((List.range 8).map fun k => (x.extractLsb' 16 8).getLsbD k)
  simpa only [List.map_map, Function.comp_def] using hlinear

/-- The matrix of the special cluster. -/
def matrixByte (x : BitVec 24) : Word :=
  (BitVec.ofBoolListLE (SpecialExecutionCluster.crcMasks.map fun mask =>
    SpecialExecutionCluster.xorR (x &&& mask))).setWidth 32

theorem matrixByte_eq (x : BitVec 24) : matrixByte x = (serialByte x).setWidth 32 := by
  have hmatrix : XorLinear matrixByte :=
    xorLinear_rows (xorLinearBit_foldl _) SpecialExecutionCluster.crcMasks
  have hserial : XorLinear fun x => (serialByte x).setWidth 32 :=
    xorLinear_setWidth.comp serialByte_linear
  -- both maps are linear, so the 24 unit vectors decide
  refine hmatrix.eq_of_basis hserial ?_ x
  decide +kernel

/-- The result of the cluster is eight rounds on the low byte and the low half. -/
theorem crcResult_eq (i : ALUInput) :
    SpecialExecutionCluster.crcResult i =
      (crcStream (i.src2.extractLsb' 0 16) (byteBits (i.src1.extractLsb' 0 8))).setWidth 32 := by
  have hparts : serialByte (i.src1.extractLsb' 0 8 ++ i.src2.extractLsb' 0 16) =
      crcStream (i.src2.extractLsb' 0 16) (byteBits (i.src1.extractLsb' 0 8)) := by
    rw [serialByte, BitVec.extractLsb'_append_eq_right, BitVec.extractLsb'_append_eq_left]
  rw [← hparts]
  exact matrixByte_eq _

/-! ## The instruction -/

section Instruction

variable {j : IDU.In} {r : EXU.Regs} {i : EXU.In}

/-- The fields of the instruction select the matrix. -/
theorem aluResult_of_crc {k : ALUInput} (himm : k.is_imm = false) (hfunc3 : k.func3t = 0#3)
    (hfunc7 : k.func7t = 0#7) (hcrc : k.crcValid = true) :
    SpecialExecutionCluster.aluResult k = SpecialExecutionCluster.crcResult k := by
  simp [SpecialExecutionCluster.aluResult, SpecialExecutionCluster.isReg,
    SpecialExecutionCluster.isImmSel, SpecialExecutionCluster.isEither, himm, hfunc3, hfunc7, hcrc]

theorem acceleratorResult_of_crc (hcrc : IDU.isCrcU8Custom (IDU.inst j) = true)
    (hd : i.dinst = IDU.outBits j) :
    (EXU.writeBackInfo r i).acceleratorResult.data =
      SpecialExecutionCluster.crcResult (EXU.specialIn i) := by
  have hfields : (IDU.func7 (IDU.inst j) = 0#7 ∧ IDU.func3 (IDU.inst j) = 0#3) ∧
      IDU.opcode (IDU.inst j) = 0b0001011#7 := by
    simpa [IDU.isCrcU8Custom, IDU.isCustom0] using hcrc
  rcases hfields with ⟨⟨hfunc7, hfunc3⟩, hopcode⟩
  have hmeta := IDU.metaInfo_custom0 _ hopcode
  have himm : IDU.isFmtI (IDU.inst j) = false := by simp [IDU.isFmtI, IDU.isFmt, hmeta]
  -- the other accelerators and the iterative unit have other fields
  have hdfa : EXU.isNumericDfa i.dinst = false := by
    rw [hd]
    simp [EXU.isNumericDfa, IDU.outBits, IDU.info, IDU.isNumericDfaCustom, hopcode]
  have hlist : EXU.isListReverse i.dinst = false := by
    rw [hd]
    simp [EXU.isListReverse, IDU.outBits, IDU.info, IDU.isListReverseCustom,
      IDU.isListReverseEncoding, hfunc3]
  have hsum : EXU.isXmsum i.dinst = false := by
    rw [hd]
    simp [EXU.isXmsum, IDU.outBits, IDU.info, IDU.isMatrixReduceCustom, IDU.isCustom0, hfunc3]
  have hB : (EXU.specialIn i).bExtValid = false := by
    have hiterative : IDU.isIterativeB (IDU.inst j) = false := by
      simp [IDU.isIterativeB, IDU.isBCount, IDU.isBClmul, IDU.isBOrcB, IDU.isBXperm4, IDU.isBRor,
        IDU.isImmSel, IDU.isReg, IDU.isEither, hfunc7]
    simp only [EXU.specialIn, hd, IDU.outBits, IDU.info, hiterative, Bool.and_false]
  have hfields3 : (EXU.specialIn i).func3t = 0#3 := by
    simp only [EXU.specialIn, hd]
    exact hfunc3
  have hfields7 : (EXU.specialIn i).func7t = 0#7 := by
    simp only [EXU.specialIn, hd]
    exact hfunc7
  have hreg : (EXU.specialIn i).is_imm = false := by
    simp only [EXU.specialIn, hd]
    exact himm
  have hvalid : (EXU.specialIn i).crcValid = true := by
    simp only [EXU.specialIn, hd]
    exact hcrc
  have hout : EXU.specialExecutionOut r i =
      SpecialExecutionCluster.aluResult (EXU.specialIn i) := by
    simp [EXU.specialExecutionOut, SpecialExecutionCluster.outBits, SpecialExecutionCluster.isMulOp,
      SpecialExecutionCluster.isDivOp, SpecialExecutionCluster.isMExt, hB, hfields7]
  simp only [EXU.writeBackInfo, EXU.acceleratorData, hdfa, hlist, hsum, Bool.false_eq_true, if_false]
  rw [hout, aluResult_of_crc hreg hfields3 hfields7 hvalid]

end Instruction

/-- The function of the instruction on two registers. -/
def crcInst (rs1 rs2 : Word) : Word :=
  SpecialExecutionCluster.crcResult
    { is_imm := false, isSub := false, func3t := 0, func7t := 0, bExtValid := false
      crcValid := true, xbmulValid := false, src1 := rs1, src2 := rs2, mulRawSrc1 := rs1
      mulRawSrc2 := rs2, mulPrevData := 0, mulPrevRs1 := false, mulPrevRs2 := false
      mulNoLate := true }

theorem crcInst_eq (rs1 rs2 : Word) :
    crcInst rs1 rs2 =
      (crcStream (rs2.extractLsb' 0 16) (byteBits (rs1.extractLsb' 0 8))).setWidth 32 :=
  crcResult_eq _

/-! ## Software -/

/-- One round of the loop of `crcu8` in `core_util.c`, on `data` and `crc`. -/
def crcRound (s : BitVec 8 × BitVec 16) : BitVec 8 × BitVec 16 :=
  let x16 := (s.1 &&& 1#8) ^^^ (s.2.setWidth 8 &&& 1#8)
  let data := s.1 >>> 1
  if x16 == 1#8 then (data, ((s.2 ^^^ 0x4002#16) >>> 1) ||| 0x8000#16)
  else (data, (s.2 >>> 1) &&& 0x7fff#16)

def crcu8 (data : BitVec 8) (crc : BitVec 16) : BitVec 16 := (crcRound^[8] (data, crc)).2

/-- `__hw_crcu8`, which replaces it. -/
def hwCrcu8 (data : BitVec 8) (crc : BitVec 16) : BitVec 16 :=
  (crcInst (data.setWidth 32) (crc.setWidth 32)).extractLsb' 0 16

/-- The loop of `__xaccel_crc32_u8`. -/
def xaccelCrc32U8Loop : ℕ → Word → BitVec 16 → BitVec 16
  | 0, _, crc => crc
  | n + 1, data, crc =>
    xaccelCrc32U8Loop n (data >>> 8) ((crcInst data (crc.setWidth 32)).extractLsb' 0 16)

def xaccelCrc32U8 (data : Word) (crc : BitVec 16) : BitVec 16 := xaccelCrc32U8Loop 4 data crc

theorem crcRound_eq (data : BitVec 8) (crc : BitVec 16) :
    crcRound (data, crc) = (data >>> 1, crcShift crc (data.getLsbD 0)) := by
  have hx16 : ((data &&& 1#8) ^^^ (crc.setWidth 8 &&& 1#8) == 1#8) =
      (data.getLsbD 0 ^^ crc.getLsbD 0) := by
    rw [BitVec.and_one_eq_setWidth_ofBool_getLsbD, BitVec.and_one_eq_setWidth_ofBool_getLsbD,
      BitVec.getLsbD_setWidth]
    cases data.getLsbD 0 <;> cases crc.getLsbD 0 <;> rfl
  -- the software sets the top bit by an or and clears it by a mask
  have hset : ((crc ^^^ 0x4002#16) >>> 1) ||| 0x8000#16 = crc >>> 1 ^^^ 0xa001#16 := by
    apply BitVec.eq_of_getLsbD_eq
    intro k hk
    interval_cases k <;> simp
  have hclear : (crc >>> 1) &&& 0x7fff#16 = crc >>> 1 := by
    apply BitVec.eq_of_getLsbD_eq
    intro k hk
    interval_cases k <;> simp
  simp only [crcRound, hx16, hset, hclear, crcShift]
  cases data.getLsbD 0 ^^ crc.getLsbD 0 with
  | false => exact Prod.ext rfl (BitVec.xor_zero).symm
  | true => rfl

theorem crcu8_eq (data : BitVec 8) (crc : BitVec 16) :
    crcu8 data crc = crcStream crc (byteBits data) := by
  rw [crcu8, iterate_eq_crcStream Prod.mk crcRound_eq]
  rfl

theorem hwCrcu8_eq (data : BitVec 8) (crc : BitVec 16) :
    hwCrcu8 data crc = crcStream crc (byteBits data) := by
  rw [hwCrcu8, crcInst_eq, extractLsb'_setWidth _ (by decide), extractLsb'_setWidth _ (by decide),
    extractLsb'_setWidth _ (by decide)]

theorem xaccelCrc32U8Loop_eq (n : ℕ) (data : Word) (crc : BitVec 16) :
    xaccelCrc32U8Loop n data crc = crcStream crc (wordBits n data) := by
  induction n generalizing data crc with
  | zero => rfl
  | succ n ih =>
    rw [xaccelCrc32U8Loop, ih, crcInst_eq, extractLsb'_setWidth _ (by decide),
      extractLsb'_setWidth _ (by decide), wordBits, crcStream_append]

/-- A step that takes a byte into the register takes a message into it. -/
theorem foldl_eq_crcStream {step : BitVec 8 → BitVec 16 → BitVec 16}
    (h : ∀ data crc, step data crc = crcStream crc (byteBits data)) (message : List (BitVec 8))
    (crc : BitVec 16) :
    message.foldl (fun crc data => step data crc) crc = crcStream crc (message.flatMap byteBits) := by
  induction message generalizing crc with
  | nil => rfl
  | cons data message ih => rw [List.foldl_cons, ih, h, List.flatMap_cons, crcStream_append]

/-- In every state of EXU the CRC instruction computes what the reference simulator does
for all register values, so that a message of any length gets the bit-serial CRC. -/
theorem crc_instruction_is_bit_serial :
    (∀ (j : IDU.In) (r : EXU.Regs) (i : EXU.In), IDU.isCrcU8Custom (IDU.inst j) = true →
      i.dinst = IDU.outBits j →
        (EXU.writeBackInfo r i).acceleratorResult.data =
          crcUpdate i.dinst.info.reg1 i.dinst.info.reg2 1) ∧
    (∀ rs1 rs2, crcInst rs1 rs2 = crcUpdate rs1 rs2 1) ∧
    (∀ (message : List (BitVec 8)) (crc : BitVec 16),
      message.foldl (fun crc data => hwCrcu8 data crc) crc =
          crcStream crc (message.flatMap byteBits) ∧
        message.foldl (fun crc data => crcu8 data crc) crc =
          crcStream crc (message.flatMap byteBits)) ∧
    ∀ (data : Word) (crc : BitVec 16),
      (xaccelCrc32U8 data crc).setWidth 32 = crcUpdate data (crc.setWidth 32) 4 := by
  refine ⟨?_, ?_, ?_, ?_⟩
  · intro j r i hcrc hd
    rw [acceleratorResult_of_crc hcrc hd, crcResult_eq, crcUpdate_eq, wordBits, wordBits,
      List.append_nil]
    rfl
  · intro rs1 rs2
    rw [crcInst_eq, crcUpdate_eq, wordBits, wordBits, List.append_nil]
  · intro message crc
    exact ⟨foldl_eq_crcStream hwCrcu8_eq message crc, foldl_eq_crcStream crcu8_eq message crc⟩
  · intro data crc
    rw [xaccelCrc32U8, xaccelCrc32U8Loop_eq, crcUpdate_eq, extractLsb'_setWidth _ (by decide)]

/-- The instruction on the character `1` and the register zero. -/
theorem crc_instruction_is_bit_serial_one :
    (EXU.writeBackInfo Soc.PowerUp.exu
      (Soc.exuOf (Soc.decoding 0x0020818b#32 0x31#32))).acceleratorResult.data = 0xd4c1#32 := by
  have hrun := crc_instruction_is_bit_serial.1 (Soc.decoding 0x0020818b#32 0x31#32) Soc.PowerUp.exu
    (Soc.exuOf (Soc.decoding 0x0020818b#32 0x31#32)) (by decide) rfl
  rw [hrun]
  decide +kernel

end Coremark
end Jyd
