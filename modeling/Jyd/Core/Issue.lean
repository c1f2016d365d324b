import Jyd.Core.ExuControlFlow
import Jyd.Core.ExuRequests

/-!
# Issue — operands and tokens of an issued instruction

IDU issues an instruction with a register value, with an adjacent-fast token or with
a late-load token for each operand.  This module says which classes may carry a
token, how EXU reads it back, and that an adjacent token is used at once.
-/

namespace Jyd
namespace Core

open Hdl

namespace IDU

variable {code : Word} {j : In}

/-! ## Classes -/

/-- No fast encoding is one of a long operation. -/
theorem not_long_of_fast (h : isFastIntegerArithmetic code = true) :
    isLongArithmetic code = false := by
  simp only [isFastIntegerArithmetic, isRv32iImmediate, isRv32iRegister, isPack, isReg,
    Bool.and_eq_true, Bool.or_eq_true, bne_iff_ne, beq_iff_eq, Bool.not_eq_true'] at h
  have hcases : (isFmtI code = true ∧ func3 code ≠ 1#3 ∧ func3 code ≠ 5#3) ∨
      (isFmtI code = true ∧ (func7 code = 0#7 ∨ func7 code = 32#7 ∧ func3 code = 5#3)) ∨
      (isFmtI code = false ∧ (func7 code = 0#7 ∨ func7 code = 4#7 ∨
        (func7 code = 32#7 ∧ (func3 code = 0#3 ∨ func3 code = 5#3)))) := by
    grind
  have hno : isMExtArithmetic code = false ∧ isIterativeB code = false ∧ isShortB code = false := by
    rcases hcases with ⟨hf, h1, h5⟩ | ⟨hf, h7 | ⟨h7, h3⟩⟩ | ⟨hf, h7 | h7 | ⟨h7, h3 | h3⟩⟩ <;>
      simp [isMExtArithmetic, isIterativeB, isShortB, isBCount, isBClmul, isBOrcB, isBXperm4, isBRor,
        isBShiftAdd, isBSext, isBMinu, isBBext, isBSet, isBClr, isBInv, isBAndn, isBOrn, isBXnor,
        isBMax, isBMaxu, isBMin, isBRol, isBRev8, isReg, isEither, isImmSel, *]
  simp [isLongArithmetic, hno]

theorem not_accelerator_of_fast (h : isFastIntegerArithmetic code = true) :
    isAccelerator code = false := by
  simp only [isFastIntegerArithmetic, isRv32iImmediate, isRv32iRegister, isPack, isReg,
    Bool.and_eq_true, Bool.or_eq_true, bne_iff_ne, beq_iff_eq, Bool.not_eq_true'] at h
  have hcases : opcode code = 0b0010011#7 ∨ opcode code = 0b0110011#7 ∨ func7 code = 4#7 := by
    grind
  rcases hcases with ho | ho | h7 <;>
    simp [isAccelerator, isCrcU8Custom, isBitExtractMulCustom, isListReverseCustom,
      isListReverseEncoding, isMatrixReduceCustom, isNumericDfaCustom, isCustom0, *]

theorem resultKind_of_fast (h : isFastIntegerArithmetic code = true) :
    resultKind code = .fastInt := by
  have htyp : (metaInfo code).typ = .arithmetic := by
    simp only [isFastIntegerArithmetic, Bool.and_eq_true, isTyp, beq_iff_eq] at h
    exact h.1
  simp [resultKind, isTyp, htyp, not_accelerator_of_fast h, not_long_of_fast h]

/-- The accelerators are register-format instructions. -/
theorem not_accelerator_of_imm (h : isFmtI code = true) : isAccelerator code = false := by
  refine Bool.eq_false_iff.mpr fun ha => ?_
  have hop : opcode code = 0b0001011#7 ∨ opcode code = 0b1011011#7 := by
    simp only [isAccelerator, isCrcU8Custom, isBitExtractMulCustom, isListReverseCustom,
      isListReverseEncoding, isMatrixReduceCustom, isNumericDfaCustom, isCustom0, Bool.or_eq_true,
      Bool.and_eq_true, beq_iff_eq] at ha
    grind
  rcases hop with ho | ho
  · simp [isFmtI, isFmt, metaInfo_custom0 _ ho] at h
  · simp [isFmtI, isFmt, metaInfo_custom2 _ ho] at h

/-- The two arithmetic consumers of a late load: `andi 1` and `srli 1`. -/
theorem lateBit_class (h : (isLateLoadAndi1 code || isLateLoadSrli1 code) = true) :
    isTyp code .arithmetic = true ∧ isFmtI code = true ∧ immI code = 1#32 ∧ func7 code = 0#7 ∧
      (func3 code = 0b111#3 ∨ func3 code = 0b101#3) := by
  simp only [isLateLoadAndi1, isLateLoadSrli1, Bool.or_eq_true, Bool.and_eq_true, beq_iff_eq] at h
  have himm : code.extractLsb' 20 12 = 1#12 := by rcases h with h | h <;> exact h.2
  have hbit : ∀ n < 12, code.getLsbD (20 + n) = (1#12).getLsbD n := by
    intro n hn
    have hn' := congrArg (fun x => x.getLsbD n) himm
    simpa only [BitVec.getLsbD_extractLsb', hn, decide_true, Bool.true_and] using hn'
  have h7 : func7 code = 0#7 := by
    apply BitVec.eq_of_getLsbD_eq
    intro n hn
    have hn' := hbit (5 + n) (by omega)
    simp only [func7, BitVec.getLsbD_extractLsb', hn, decide_true, Bool.true_and]
    rw [show 25 + n = 20 + (5 + n) by omega, hn']
    have hzero : ∀ m : Fin 7, (1#12).getLsbD (5 + m) = (0#7).getLsbD m := by decide
    exact hzero ⟨n, hn⟩
  have hI : immI code = 1#32 := by
    have h31 : code.getLsbD 31 = false := hbit 11 (by omega)
    have hlow : code.extractLsb' 20 11 = 1#11 := by
      apply BitVec.eq_of_getLsbD_eq
      intro n hn
      simp only [BitVec.getLsbD_extractLsb', hn, decide_true, Bool.true_and]
      rw [hbit n (by omega)]
      have hone : ∀ m : Fin 11, (1#12).getLsbD m = (1#11).getLsbD m := by decide
      exact hone ⟨n, hn⟩
    rw [immI, h31, hlow]
    rfl
  rcases h with h | h
  · exact ⟨h.1.1.1, h.1.1.2, hI, h7, Or.inl h.1.2⟩
  · exact ⟨h.1.1.1, h.1.1.2, hI, h7, Or.inr h.1.2⟩

theorem resultKind_of_lateBit (h : (isLateLoadAndi1 code || isLateLoadSrli1 code) = true) :
    resultKind code = .fastInt := by
  rcases lateBit_class h with ⟨htyp, hfmt, _, h7, h3⟩
  have hlong : isLongArithmetic code = false := by
    rcases h3 with h3 | h3 <;>
      simp [isLongArithmetic, isMExtArithmetic, isIterativeB, isShortB, isBCount, isBClmul, isBOrcB,
        isBXperm4, isBRor, isBShiftAdd, isBSext, isBMinu, isBBext, isBSet, isBClr, isBInv, isBAndn,
        isBOrn, isBXnor, isBMax, isBMaxu, isBMin, isBRol, isBRev8, isReg, isEither, isImmSel, *]
  have htyp' : (metaInfo code).typ = .arithmetic := by simpa [isTyp] using htyp
  simp [resultKind, isTyp, htyp', not_accelerator_of_imm hfmt, hlong]

/-! ## The bypass multiplexer -/

theorem conflict_iff {rs rd : BitVec 5} {en : Bool} :
    conflict rs rd en = true ↔ rs = rd ∧ rd ≠ 0#5 ∧ en = true := by
  simp [conflict, and_assoc]

section Mux

variable {rs : BitVec 5} {regData : Word} {exu lsu : WrBackForwardInfo}
  {producer allowLate allowFast : Bool}

/-- A producer in EXU is only passed with a token. -/
theorem select_of_exuConflict (hc : conflict rs exu.addr exu.enWr = true)
    (hs : (CacheAwareByPassMux rs regData exu lsu producer allowLate allowFast).needStall = false) :
    (CacheAwareByPassMux rs regData exu lsu producer allowLate allowFast).lateLoadSelect = true ∨
      (CacheAwareByPassMux rs regData exu lsu producer allowLate allowFast).adjacentFastSelect =
        true := by
  simp only [CacheAwareByPassMux, hc, Bool.and_true] at hs ⊢
  cases hl : allowLate && producer <;> simp_all

theorem exuConflict_of_select
    (h : (CacheAwareByPassMux rs regData exu lsu producer allowLate allowFast).lateLoadSelect = true ∨
      (CacheAwareByPassMux rs regData exu lsu producer allowLate allowFast).adjacentFastSelect =
        true) : conflict rs exu.addr exu.enWr = true := by
  simp only [CacheAwareByPassMux, Bool.and_eq_true] at h
  rcases h with h | h <;> exact h.1.2

theorem late_of_select
    (h : (CacheAwareByPassMux rs regData exu lsu producer allowLate allowFast).lateLoadSelect = true) :
    allowLate = true ∧ producer = true := by
  simp only [CacheAwareByPassMux, Bool.and_eq_true] at h
  exact ⟨h.1.1, h.2⟩

theorem fast_of_select
    (h : (CacheAwareByPassMux rs regData exu lsu producer allowLate allowFast).adjacentFastSelect =
      true) : allowFast = true ∧ exu.dataVaild = true := by
  simp only [CacheAwareByPassMux, Bool.and_eq_true] at h
  exact ⟨h.1.1, h.2⟩

/-- Without a producer in EXU the operand comes from LSU or from the register file. -/
theorem outData_of_no_exuConflict {v : Word} (hc : conflict rs exu.addr exu.enWr = false)
    (hs : (CacheAwareByPassMux rs regData exu lsu producer allowLate allowFast).needStall = false)
    (hlsu : conflict rs lsu.addr lsu.enWr = true → lsu.dataVaild = true → lsu.data = v)
    (hreg : conflict rs lsu.addr lsu.enWr = false → regData = v) :
    (CacheAwareByPassMux rs regData exu lsu producer allowLate allowFast).outData = v := by
  cases hl : conflict rs lsu.addr lsu.enWr with
  | false => simpa [CacheAwareByPassMux, hl] using hreg hl
  | true =>
    have hv : lsu.dataVaild = true := by simpa [CacheAwareByPassMux, hc, hl] using hs
    simpa [CacheAwareByPassMux, hc, hl, hv] using hlsu hl hv

end Mux

/-! ## Tokens of one instruction -/

/-- A late-load producer offers no fast result in the same cycle. -/
def Exclusive (j : In) : Prop := j.lateLoadProducer = true → j.exu.dataVaild = false

theorem not_adjacent_of_late (h : Exclusive j)
    (hl : ((byPass1 j).lateLoadSelect || (byPass2 j).lateLoadSelect) = true) :
    (byPass1 j).adjacentFastSelect = false ∧ (byPass2 j).adjacentFastSelect = false := by
  have hp : j.lateLoadProducer = true := by
    rcases (Bool.or_eq_true _ _).mp hl with hl | hl <;> exact (late_of_select hl).2
  have hno := h hp
  refine ⟨?_, ?_⟩ <;> refine Bool.eq_false_iff.mpr fun ha => ?_
  · exact Bool.false_ne_true (hno.symm.trans (fast_of_select ha).2)
  · exact Bool.false_ne_true (hno.symm.trans (fast_of_select ha).2)

end IDU

namespace EXU

variable {r : Regs} {i : In} {j : IDU.In}

/-- The ALU operands of a decoded instruction. -/
theorem fastRegV1_eq (hj : i.dinst = IDU.outBits j) :
    fastRegV1 i = if IDU.fastAluRs1Token j then i.previousStageFwd.data else IDU.reg1 j := by
  rw [fastRegV1, fastAluRs1Groups, hj]
  simp only [IDU.outBits, IDU.info, decode_encodeToken, selectAdjacentFast_fill]

theorem fastRegV2_eq (hj : i.dinst = IDU.outBits j) :
    fastRegV2 i = if IDU.fastAluRs2Token j then i.previousStageFwd.data else IDU.reg2 j := by
  rw [fastRegV2, fastAluRs2Groups, hj]
  simp only [IDU.outBits, IDU.info, decode_encodeToken, selectAdjacentFast_fill]

theorem storeRegV2_eq (hj : i.dinst = IDU.outBits j) :
    storeRegV2 i = if IDU.fastStoreRs2Token j then i.previousStageFwd.data else IDU.reg2 j := by
  rw [storeRegV2, fastStoreRs2Groups, hj]
  simp only [IDU.outBits, IDU.info, decode_encodeToken, selectAdjacentFast_fill]

/-! ## Late operands -/

theorem append_beq {m n : Nat} (a : BitVec m) (b : BitVec n) (x : BitVec (m + n)) :
    (a ++ b == x) = (b == x.extractLsb' 0 n && a == x.extractLsb' n m) := by
  rw [Bool.eq_iff_iff]
  simp only [beq_iff_eq, Bool.and_eq_true]
  constructor
  · rintro rfl
    refine ⟨?_, ?_⟩ <;>
      (apply BitVec.eq_of_getLsbD_eq
       intro k hk
       simp only [BitVec.getLsbD_extractLsb', BitVec.getLsbD_append, hk]
       grind)
  · rintro ⟨rfl, rfl⟩
    apply BitVec.eq_of_getLsbD_eq
    intro k hk
    simp only [BitVec.getLsbD_append, BitVec.getLsbD_extractLsb']
    grind

/-- Comparing raw cache data is comparing the loaded value. -/
theorem rawLoadEqual_eq {raw other : Word} {offset : BitVec 2} {f3 : BitVec 3} :
    rawLoadEqual raw offset f3 other = (ExtLoadData raw offset f3 == other) := by
  simp only [rawLoadEqual, ExtLoadData]
  split
  · rfl
  · split
    · rw [append_beq]
      congr 1
      cases f3.getLsbD 2 <;> simp [fill, Bool.beq_comm]
    · rw [append_beq]
      congr 1
      cases f3.getLsbD 2 <;> simp [fill, Bool.beq_comm]

theorem lowBit_eq (x : Word) : (x.extractLsb' 0 1).setWidth 32 = x &&& 1#32 := by
  apply BitVec.eq_of_getLsbD_eq
  intro k hk
  simp only [BitVec.getLsbD_setWidth, BitVec.getLsbD_extractLsb', BitVec.getLsbD_and]
  grind

theorem highBits_eq (x : Word) : (x.extractLsb' 1 31).setWidth 32 = x >>> 1 := by
  apply BitVec.eq_of_getLsbD_eq
  intro k hk
  simp only [BitVec.getLsbD_setWidth, BitVec.getLsbD_extractLsb', BitVec.getLsbD_ushiftRight]
  grind

/-- The fixed late results are those of the fast lane. -/
theorem lateBit_eq {code : Word} {isSub : Bool}
    (h : (IDU.isLateLoadAndi1 code || IDU.isLateLoadSrli1 code) = true) (x : Word) :
    lateBit (code.extractLsb' 12 3 == 0b111#3) x =
      FastIntegerALU.outBits ⟨true, isSub, code.extractLsb' 12 3, code.extractLsb' 25 7, x,
        IDU.immI code⟩ := by
  rcases IDU.lateBit_class h with ⟨_, _, himm, h7, h3⟩
  have h7' : code.extractLsb' 25 7 = 0#7 := h7
  rcases h3 with h3 | h3
  · have h3' : code.extractLsb' 12 3 = 7#3 := h3
    rw [himm, h7', h3']
    exact lowBit_eq x
  · have h3' : code.extractLsb' 12 3 = 5#3 := h3
    rw [himm, h7', h3']
    simp [lateBit, FastIntegerALU.outBits, highBits_eq]

/-! ## Classes that carry tokens -/

theorem not_accelerator_of_code (hj : i.dinst = IDU.outBits j)
    (h : IDU.isAccelerator (IDU.inst j) = false) :
    isNumericDfa i.dinst = false ∧ isListReverse i.dinst = false ∧ isXmsum i.dinst = false := by
  simp only [IDU.isAccelerator, Bool.or_eq_false_iff] at h
  rw [hj]
  exact ⟨h.2, h.1.1.2, h.1.2⟩

/-- A late-load consumer is a fixed bit operation or an equality branch. -/
theorem late_class (hj : i.dinst = IDU.outBits j) (hl : hasLateLoadOperand i.dinst = true) :
    (IDU.isLateLoadAndi1 (IDU.inst j) || IDU.isLateLoadSrli1 (IDU.inst j)) = true ∨
      IDU.isEqualityBranch (IDU.inst j) = true := by
  rw [hj] at hl
  have hl' : ((IDU.byPass1 j).lateLoadSelect || (IDU.byPass2 j).lateLoadSelect) = true := hl
  rcases (Bool.or_eq_true _ _).mp hl' with h | h
  · have hallow := (IDU.late_of_select h).1
    simp only [IDU.allowLateLoadRs1, Bool.or_eq_true] at hallow
    rcases hallow with (h | h) | h <;> simp [h]
  · exact Or.inr (IDU.late_of_select h).1

theorem not_accelerator_of_late (hd : Decoded i.dinst) (hl : hasLateLoadOperand i.dinst = true) :
    isNumericDfa i.dinst = false ∧ isListReverse i.dinst = false ∧ isXmsum i.dinst = false := by
  rcases hd with ⟨j, hj⟩
  rcases late_class hj hl with h | h
  · exact not_accelerator_of_code hj
      (IDU.not_accelerator_of_imm (IDU.lateBit_class h).2.1)
  · have hbr : isTypBranch i.dinst = true := by
      simp only [IDU.isEqualityBranch, Bool.and_eq_true] at h
      rw [hj]
      exact h.1
    exact not_accelerator ⟨j, hj⟩ (not_arithmetic_of_branch hbr)

/-- A late consumer is ready exactly with its late operands. -/
theorem exuResultValid_of_late (hd : Decoded i.dinst) (hl : hasLateLoadOperand i.dinst = true) :
    exuResultValid r i = lateDataReady r i := by
  rcases not_accelerator_of_late hd hl with ⟨hn, hlr, hx⟩
  rcases hd with ⟨j, hj⟩
  have hsys : isTypSys i.dinst = false ∧
      (isTypArithmetic i.dinst = true → resultIsFast i.dinst = true) := by
    rcases late_class hj hl with h | h
    · have htyp : (IDU.metaInfo (IDU.inst j)).typ = .arithmetic := by
        simpa [IDU.isTyp] using (IDU.lateBit_class h).1
      rw [hj]
      refine ⟨by simp [isTypSys, IDU.outBits, IDU.info, htyp], fun _ => ?_⟩
      simp [resultIsFast, IDU.outBits, IDU.info, IDU.resultKind_of_lateBit h]
    · have htyp : (IDU.metaInfo (IDU.inst j)).typ = .branch := by
        simp only [IDU.isEqualityBranch, Bool.and_eq_true, IDU.isTyp, beq_iff_eq] at h
        exact h.1
      rw [hj]
      refine ⟨by simp [isTypSys, IDU.outBits, IDU.info, htyp], fun ha => ?_⟩
      simp [isTypArithmetic, IDU.outBits, IDU.info, htyp] at ha
  cases ha : isTypArithmetic i.dinst with
  | false => simp [exuResultValid, isNumericDfaStep, hn, hlr, hx, hsys.1, ha, hl]
  | true => simp [exuResultValid, isNumericDfaStep, hn, hlr, hx, hsys.1, ha, hl, hsys.2 ha]

theorem not_needMemReq_of_late (hd : Decoded i.dinst) (hl : hasLateLoadOperand i.dinst = true) :
    needMemReq i.dinst = false := by
  cases ha : isTypArithmetic i.dinst with
  | true => exact not_needMemReq_of_arithmetic ha
  | false =>
    have hbr : isTypBranch i.dinst = true := Bool.eq_true_of_not_eq_false fun hb =>
      Bool.false_ne_true ((not_hasLate hd ha hb).symm.trans hl)
    have htyp : i.dinst.info.typ = .branch := by simpa [isTypBranch] using hbr
    rw [needMemReq, isTypLoad, isTypStore, htyp]
    rfl

/-- An adjacent token is used in the first cycle. -/
theorem inFire_of_adjacent (hj : i.dinst = IDU.outBits j) (hex : IDU.Exclusive j)
    (hv : i.valid = true) (hout : i.outReady = true) (hmem : i.memReqReady = true)
    (ha : ((IDU.byPass1 j).adjacentFastSelect || (IDU.byPass2 j).adjacentFastSelect) = true) :
    inFire r i = true := by
  have hd : Decoded i.dinst := ⟨j, hj⟩
  have hlate : hasLateLoadOperand i.dinst = false := by
    refine Bool.eq_false_iff.mpr fun hl => ?_
    rw [hj] at hl
    have hno := IDU.not_adjacent_of_late hex hl
    simp [hno] at ha
  -- adjacent forwarding is granted to three classes only, and each of them completes at once
  have hclass : IDU.isFastIntegerArithmetic (IDU.inst j) = true ∨
      IDU.isTyp (IDU.inst j) .branch = true ∨ IDU.isTyp (IDU.inst j) .store = true := by
    rcases (Bool.or_eq_true _ _).mp ha with h | h
    · have hallow := (IDU.fast_of_select h).1
      simp only [Bool.or_eq_true] at hallow
      rcases hallow with h | h <;> simp [h]
    · have hallow := (IDU.fast_of_select h).1
      simp only [Bool.or_eq_true] at hallow
      rcases hallow with (h | h) | h <;> simp [h]
  rcases hclass with hc | hc | hc
  · rcases not_accelerator_of_code hj (IDU.not_accelerator_of_fast hc) with ⟨hn, hlr, hx⟩
    have harith : isTypArithmetic i.dinst = true := by
      simp only [IDU.isFastIntegerArithmetic, Bool.and_eq_true] at hc
      rw [hj]
      exact hc.1
    have hfast : resultIsFast i.dinst = true := by
      rw [hj]
      simp [resultIsFast, IDU.outBits, IDU.info, IDU.resultKind_of_fast hc]
    have hsys : isTypSys i.dinst = false := by
      have htyp : i.dinst.info.typ = .arithmetic := by simpa [isTypArithmetic] using harith
      simp [isTypSys, htyp]
    simp [inFire, inReady, isNumericDfaStep, hn, hlr, hx, not_needMemReq_of_arithmetic harith,
      exuResultValid, fastIntegerValid, hsys, harith, hfast, hlate, hv, hout]
  · have hbr : isTypBranch i.dinst = true := by
      rw [hj]
      exact hc
    have htyp : i.dinst.info.typ = .branch := by simpa [isTypBranch] using hbr
    rcases not_accelerator hd (not_arithmetic_of_branch hbr) with ⟨hn, hlr, hx⟩
    have hneed : needMemReq i.dinst = false := by
      rw [needMemReq, isTypLoad, isTypStore, htyp]
      rfl
    simp [inFire, inReady, isNumericDfaStep, hn, hlr, hx, hneed, exuResultValid_of_branch hd hbr,
      hlate, hv, hout]
  · have hst : isTypStore i.dinst = true := by
      rw [hj]
      exact hc
    have htyp : i.dinst.info.typ = .store := by simpa [isTypStore] using hst
    rcases not_accelerator hd (by simp [isTypArithmetic, htyp]) with ⟨hn, hlr, hx⟩
    simp [inFire, inReady, isNumericDfaStep, hn, hlr, hx, memReqFire, memReqValid_eq, needMemReq, hst,
      hv, hout, hmem]

/-- What EXU offers as a fast result is one, and never that of a load. -/
theorem fast_of_dataVaild (hd : Decoded i.dinst) (h : (fwd r i).dataVaild = true) :
    resultIsFast i.dinst = true ∧ isTypLoad i.dinst = false := by
  have harith : isTypArithmetic i.dinst = true ∧ resultIsFast i.dinst = true := by
    simp only [fwd, useSingleCycleForward, useLateBitForward, Bool.or_eq_true, Bool.and_eq_true] at h
    rcases h with ⟨⟨ha, hf⟩, _⟩ | ⟨⟨hb, _⟩, _⟩
    · exact ⟨ha, hf⟩
    · have hl : hasLateLoadOperand i.dinst = true := by
        simp only [isLateLoadBit, isLateLoadAndi1, isLateLoadSrli1, Bool.or_eq_true,
          Bool.and_eq_true] at hb
        rcases hb with hb | hb <;> exact hb.1
      rcases hd with ⟨j, hj⟩
      rcases late_class hj hl with hc | hc
      · have htyp := (IDU.lateBit_class hc).1
        rw [hj]
        refine ⟨htyp, ?_⟩
        simp [resultIsFast, IDU.outBits, IDU.info, IDU.resultKind_of_lateBit hc]
      · -- an equality branch has another function field
        have hf3 : func3t i.dinst = IDU.func3 (IDU.inst j) := by
          rw [hj]
          rfl
        simp only [isLateLoadBit, isLateLoadAndi1, isLateLoadSrli1, hf3, Bool.or_eq_true,
          Bool.and_eq_true, beq_iff_eq] at hb
        rcases IDU.func3_of_equalityBranch hc with h0 | h0 <;> rw [h0] at hb <;> simp at hb
  have htyp : i.dinst.info.typ = .arithmetic := by simpa [isTypArithmetic] using harith.1
  exact ⟨harith.2, by simp [isTypLoad, htyp]⟩

end EXU

end Core
end Jyd
