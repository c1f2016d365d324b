import Jyd.Core.ExuOccupancy

/-!
# ExuControlFlow — where the program continues after an instruction leaves EXU

`predictedNext` is the address that the front end fetched behind an instruction
whose prediction was not withdrawn.  When the instruction leaves without asking for
a redirect, that address is the trimmed `nxtPC`; in any case the update registers
then describe `nxtPC`.
-/

namespace Jyd
namespace Core

open Hdl

/-! ## Trimmed arithmetic -/

namespace TrimmedPC

theorem trim_add_four (x : Word) : trim (x + 4) = trim x + 1 := by
  apply BitVec.eq_of_toNat_eq
  simp only [trim, BitVec.extractLsb'_toNat, BitVec.toNat_add, BitVec.ofNat_eq_ofNat,
    BitVec.toNat_ofNat, Nat.shiftRight_eq_div_pow]
  omega

end TrimmedPC

namespace EXU

/-! ## Adjacent-fast tokens -/

theorem decode_encodeToken (token : Bool) (base : Word) :
    decodeAdjacentFastGroups (IDU.encodeToken token base) base = fill 8 token := by
  simp only [decodeAdjacentFastGroups, IDU.encodeToken, BitVec.xor_assoc, BitVec.xor_self,
    BitVec.xor_zero]

theorem selectAdjacentFast_fill (prevData base : Word) (token : Bool) :
    selectAdjacentFast prevData (fill 8 token) base = if token then prevData else base := by
  cases token with
  | false =>
    have hmask : expandAdjacentFastGroups (fill 8 false) = 0#32 := by decide
    simp only [selectAdjacentFast, hmask, BitVec.and_zero, BitVec.not_zero, BitVec.and_allOnes,
      BitVec.zero_or, Bool.false_eq_true, if_false]
  | true =>
    have hmask : expandAdjacentFastGroups (fill 8 true) = BitVec.allOnes 32 := by decide
    simp only [selectAdjacentFast, hmask, BitVec.not_allOnes, BitVec.and_zero, BitVec.and_allOnes,
      BitVec.or_zero, if_true]

variable {r : Regs} {i : In}

/-- The branch operand of a decoded instruction is its base or the previous fast result. -/
theorem branchRegV1_eq {j : IDU.In} (hj : i.dinst = IDU.outBits j) :
    branchRegV1 i =
      if IDU.fastBranchRs1Token j then i.previousStageFwd.data else i.dinst.info.reg1 := by
  rw [branchRegV1, fastBranchRs1Groups, hj]
  simp only [IDU.outBits, IDU.info, decode_encodeToken, selectAdjacentFast_fill]

theorem branchRegV2_eq {j : IDU.In} (hj : i.dinst = IDU.outBits j) :
    branchRegV2 i =
      if IDU.fastBranchRs2Token j then i.previousStageFwd.data else i.dinst.info.reg2 := by
  rw [branchRegV2, fastBranchRs2Groups, hj]
  simp only [IDU.outBits, IDU.info, decode_encodeToken, selectAdjacentFast_fill]

theorem branchRegV_of_no_token (hd : Decoded i.dinst)
    (h : i.dinst.info.adjacentFastBranch = false) :
    branchRegV1 i = i.dinst.info.reg1 ∧ branchRegV2 i = i.dinst.info.reg2 := by
  rcases hd with ⟨j, hj⟩
  have htok : IDU.fastBranchRs1Token j = false ∧ IDU.fastBranchRs2Token j = false := by
    rw [hj] at h
    simpa [IDU.outBits, IDU.info] using h
  rw [branchRegV1_eq hj, branchRegV2_eq hj, htok.1, htok.2]
  exact ⟨rfl, rfl⟩

/-! ## Equality -/

theorem extendedLoadEqual_eq :
    extendedLoadEqual r i = (equalityRegV1 r i == equalityRegV2 r i) := by
  rw [Bool.eq_iff_iff]
  simp only [extendedLoadEqual, Bool.not_eq_true', List.any_eq_false, List.mem_range,
    bne_iff_ne, ne_eq, not_not, byteOf_xor, beq_iff_eq, BitVec.xor_eq_zero_iff]
  constructor
  · exact eq_of_byteOf
  · intro h k _
    rw [h]

/-- A late operand that did not come from LSU was captured from WBU. -/
theorem captured_of_lateDataReady {late : Bool} (hready : resolveLateLoadReady r i late = true)
    (hlate : late = true) (hlsu : i.lateLoadLSU.dataValid = false) :
    i.lateLoadLSU.valid = false ∧ r.capturedLateLoadValid = true := by
  simpa [resolveLateLoadReady, hlate, hlsu] using hready

/-! ## The two branch decisions -/

/-- Late operands of a branch come with an equality test. -/
theorem beq_or_bne_of_late (hd : Decoded i.dinst) (hbr : isTypBranch i.dinst = true)
    (hlate : hasLateLoadOperand i.dinst = true) :
    (i.dinst.info.is_beq || i.dinst.info.is_bne) = true := by
  rcases hd with ⟨j, hj⟩
  rw [hj] at hbr hlate ⊢
  have htyp : IDU.isTyp (IDU.inst j) .branch = true := hbr
  have htyp' : (IDU.metaInfo (IDU.inst j)).typ = .branch := by
    simpa [IDU.isTyp] using htyp
  have heq : IDU.isEqualityBranch (IDU.inst j) = true := by
    by_contra hno
    have hno' : IDU.isEqualityBranch (IDU.inst j) = false := by simpa using hno
    simp [hasLateLoadOperand, IDU.outBits, IDU.info, IDU.byPass1, IDU.byPass2,
      IDU.CacheAwareByPassMux, IDU.allowLateLoadRs1, IDU.isLateLoadAndi1, IDU.isLateLoadSrli1,
      IDU.isTyp, htyp', hno'] at hlate
  rcases IDU.func3_of_equalityBranch heq with h0 | h1
  · simp [IDU.outBits, IDU.info, htyp, h0]
  · simp [IDU.outBits, IDU.info, htyp, h1]

theorem typ_of_loop (hd : Decoded i.dinst) (hk : isListReverseLoop i.dinst = true) :
    i.dinst.info.typ = .arithmetic := by
  have harith := isTypArithmetic_of_listReverse hd (listReverse_of_loop hd hk)
  simpa [isTypArithmetic] using harith

/-- A loop leaves EXU when its list is done. -/
theorem listReverseDone_of_loop (hd : Decoded i.dinst) (hk : isListReverseLoop i.dinst = true)
    (hres : exuResultValid r i = true) : listReverseDone r i = true := by
  have hlist := listReverse_of_loop hd hk
  simpa [exuResultValid, isNumericDfaStep, not_numericDfa_of_listReverse hd hlist, hlist] using hres

/-- A branch is ready when its late operands are. -/
theorem exuResultValid_of_branch (hd : Decoded i.dinst) (hbr : isTypBranch i.dinst = true) :
    exuResultValid r i = (!hasLateLoadOperand i.dinst || lateDataReady r i) := by
  have htyp : i.dinst.info.typ = .branch := by
    simpa [isTypBranch] using hbr
  have harith : isTypArithmetic i.dinst = false := by
    simp [isTypArithmetic, htyp]
  have hsys : isTypSys i.dinst = false := by
    simp [isTypSys, htyp]
  rcases not_accelerator hd harith with ⟨hnum, hlist, hxm⟩
  simp [exuResultValid, isNumericDfaStep, hnum, hlist, hxm, hsys, harith]

/-- Without a registered resolution the immediate decision is the architectural one. -/
theorem immediateTakeBranch_eq (h : Occupied r i.valid i.dinst) (hd : Decoded i.dinst)
    (hbr : isTypBranch i.dinst = true) (hres : exuResultValid r i = true)
    (hreg : registeredBranchResolve i = false) :
    immediateTakeBranch r i = takeBranch r i := by
  have hparts : lateEqualityBranchResolve i = false ∧ i.dinst.info.adjacentFastBranch = false := by
    simpa [registeredBranchResolve] using hreg
  rcases branchRegV_of_no_token hd hparts.2 with ⟨hv1, hv2⟩
  -- the two comparators differ only in where they take a late operand from
  cases hlate : hasLateLoadOperand i.dinst with
  | false =>
    have hnone : i.dinst.info.lateLoadRs1 = false ∧ i.dinst.info.lateLoadRs2 = false := by
      simpa [hasLateLoadOperand] using hlate
    have hother : r.lateOtherOperandCaptured = false :=
      Bool.eq_false_iff.mpr fun hc => Bool.false_ne_true (hlate ▸ (h.other hc).2)
    simp [immediateTakeBranch, takeBranch, isEqual, useRegisteredRawLoadEqual,
      extendedLoadEqual_eq, equalityRegV1, equalityRegV2, stableLateOtherRegV1,
      stableLateOtherRegV2, hlate, hnone.1, hnone.2, hother, hv1, hv2]
  | true =>
    have hbeq := beq_or_bne_of_late hd hbr hlate
    -- a late operand that LSU does not offer has to be the captured one
    have hlsu : i.lateLoadLSU.dataValid = false := by
      simpa [lateEqualityBranchResolve, useRegisteredRawLoadEqual, hbr, hbeq, hlate]
        using hparts.1
    rw [exuResultValid_of_branch hd hbr, hlate] at hres
    have hready : resolveLateLoadReady r i i.dinst.info.lateLoadRs1 = true ∧
        resolveLateLoadReady r i i.dinst.info.lateLoadRs2 = true := by
      simpa [lateDataReady] using hres
    have heq : capturedLateEqual r i = isEqual r i := by
      rw [isEqual, useRegisteredRawLoadEqual, hlsu, Bool.and_false]
      simp only [Bool.false_eq_true, if_false, extendedLoadEqual_eq, capturedLateEqual,
        equalityRegV1, equalityRegV2, lateRegV1, lateRegV2, resolveLateLoadData]
      cases h1 : i.dinst.info.lateLoadRs1 with
      | true =>
        rcases captured_of_lateDataReady hready.1 h1 hlsu with ⟨hl, hc⟩
        cases h2 : i.dinst.info.lateLoadRs2 <;> simp [hl, hc]
      | false =>
        have h2 : i.dinst.info.lateLoadRs2 = true := by
          simpa [hasLateLoadOperand, h1] using hlate
        rcases captured_of_lateDataReady hready.2 h2 hlsu with ⟨hl, hc⟩
        simp [h2, hl, hc, Bool.beq_comm]
    simp [immediateTakeBranch, takeBranch, hlate, heq, hv1, hv2]

/-! ## The next program counter -/

/-- The address fetched behind an instruction whose prediction stands. -/
def predictedNext (d : DecodedInst) : BitVec 15 :=
  if isListReverseLoop d then
    (if d.predTake then TrimmedPC.trim d.pc else TrimmedPC.trim d.pc + 1)
  else if isTypBranch d then
    (if d.predTake then TrimmedPC.trim d.info.pcAddImm else TrimmedPC.trim d.pc + 1)
  else if isTypJAL d then TrimmedPC.trim d.info.pcAddImm
  else if isTypJALR d then TrimmedPC.trim (reg1AddImm d)
  else TrimmedPC.trim d.pc + 1

theorem trim_staticNext {d : DecodedInst} (hd : Decoded d) :
    TrimmedPC.trim d.info.staticNextPCOrCSRTarget = TrimmedPC.trim d.pc + 1 := by
  rcases hd with ⟨j, rfl⟩
  exact TrimmedPC.trim_add_four _

/-- What the update registers will say about the continuation. -/
def updateTarget (r : Regs) (i : In) : BitVec 15 :=
  if !isBranch r i || branchTaken r i then TrimmedPC.trim (branchTarget r i)
  else TrimmedPC.trim i.dinst.pc + 1

theorem updateTarget_eq (hd : Decoded i.dinst) : updateTarget r i = TrimmedPC.trim (nxtPC r i) := by
  -- the list loop updates the predictor as a branch to itself
  cases hloop : listReverseLoopBranch r i with
  | true =>
    have hk : isListReverseLoop i.dinst = true := by
      simp only [listReverseLoopBranch, Bool.and_eq_true] at hloop
      exact hloop.1
    have htyp := typ_of_loop hd hk
    cases htaken : r.listReverse.listReverseLoopTaken with
    | true =>
      simp [updateTarget, isBranch, branchTaken, branchTarget, controlFlowTarget, nxtPC, hloop,
        hk, htaken]
    | false =>
      simp [updateTarget, isBranch, branchTaken, nxtPC, normalNxtPC, snpc, hloop, htaken,
        isFmtB_eq hd, isTypJALR, isTypJAL, isTypBranch, isTypSys, htyp, TrimmedPC.trim_expand,
        trim_staticNext hd]
  | false =>
    cases hbr : isTypBranch i.dinst with
    | true =>
      have htyp : i.dinst.info.typ = .branch := by
        simpa [isTypBranch] using hbr
      have harith : isTypArithmetic i.dinst = false := by
        simp [isTypArithmetic, htyp]
      have hk := not_listReverseLoop hd harith
      cases htake : takeBranch r i <;>
        simp [updateTarget, isBranch, branchTaken, branchTarget, controlFlowTarget, nxtPC,
          normalNxtPC, snpc, hloop, hbr, hk, htake, isFmtB_eq hd, isTypJALR, isTypJAL,
          isTypSys, htyp, TrimmedPC.trim_expand, trim_staticNext hd]
    | false =>
      have htarget : updateTarget r i = TrimmedPC.trim (branchTarget r i) := by
        simp [updateTarget, isBranch, hbr, hloop]
      rw [htarget]
      cases hjump : isTypJAL i.dinst || isTypJALR i.dinst with
      | false =>
        have hno : isTypJAL i.dinst = false ∧ isTypJALR i.dinst = false := by
          simpa using hjump
        simp [branchTarget, nxtPC, normalNxtPC, hloop, hbr, hno, isFmtB_eq hd,
          TrimmedPC.trim_expand]
      | true =>
        have htyp : i.dinst.info.typ = .jal ∨ i.dinst.info.typ = .jalr := by
          simpa [isTypJAL, isTypJALR] using hjump
        have hk : isListReverseLoop i.dinst = false :=
          not_listReverseLoop hd (by rcases htyp with ht | ht <;> simp [isTypArithmetic, ht])
        rcases htyp with ht | ht <;>
          simp [branchTarget, controlFlowTarget, nxtPC, normalNxtPC, hloop, hk, isTypJAL,
            isTypJALR, isTypBranch, ht, TrimmedPC.trim_expand]

/-- An instruction that leaves without asking for a redirect continues as predicted. -/
theorem predictedNext_eq (h : Occupied r i.valid i.dinst) (hd : Decoded i.dinst)
    (hfire : inFire r i = true) (himm : immediatePredWrong r i = false)
    (hlate : registeredBranchResolve i = true → takeBranch r i = i.dinst.predTake) :
    i.dinst.info.notBranchPredWrong = false ∧
      predictedNext i.dinst = TrimmedPC.trim (nxtPC r i) := by
  have hres := h.exuResultValid_of_inFire hd hfire
  cases hk : isListReverseLoop i.dinst with
  | true =>
    have htyp := typ_of_loop hd hk
    have hloop : listReverseLoopBranch r i = true := by
      simp [listReverseLoopBranch, hk, listReverseDone_of_loop hd hk hres]
    -- no immediate redirect: the loop went the way it was predicted
    have htaken : r.listReverse.listReverseLoopTaken = i.dinst.predTake := by
      simpa [immediatePredWrong, hres, hloop] using himm
    refine ⟨not_notBranchPredWrong hd (by simp [isTypJAL, htyp]) (by simp [isTypJALR, htyp])
      (by simp [isTypSys, htyp]), ?_⟩
    cases hp : i.dinst.predTake <;>
      simp [predictedNext, hk, nxtPC, normalNxtPC, snpc, hloop, htaken, hp, isFmtB_eq hd,
        isTypJALR, isTypJAL, isTypBranch, isTypSys, htyp, TrimmedPC.trim_expand,
        trim_staticNext hd]
  | false =>
    have hloop : listReverseLoopBranch r i = false := by
      simp [listReverseLoopBranch, hk]
    have hwrong : i.dinst.info.notBranchPredWrong = false ∧
        (isTypBranch i.dinst = true → registeredBranchResolve i = false →
          immediateTakeBranch r i = i.dinst.predTake) := by
      have himm' := himm
      simp only [immediatePredWrong, hres, hloop, isFmtB_eq hd, Bool.true_and,
        Bool.false_eq_true, if_false, Bool.or_eq_false_iff] at himm'
      refine ⟨himm'.2, ?_⟩
      intro hbr hreg
      simpa [hbr, hreg] using himm'.1
    refine ⟨hwrong.1, ?_⟩
    cases hbr : isTypBranch i.dinst with
    | true =>
      -- a registered branch is compared one cycle later, in LSU
      have htake : takeBranch r i = i.dinst.predTake := by
        cases hreg : registeredBranchResolve i with
        | true => exact hlate hreg
        | false =>
          rw [← immediateTakeBranch_eq h hd hbr hres hreg]
          exact hwrong.2 hbr hreg
      have htyp : i.dinst.info.typ = .branch := by
        simpa [isTypBranch] using hbr
      cases hp : i.dinst.predTake <;>
        simp [predictedNext, hk, hbr, hp, nxtPC, normalNxtPC, snpc, hloop, htake, isFmtB_eq hd,
          isTypJALR, isTypJAL, isTypSys, htyp, TrimmedPC.trim_expand, trim_staticNext hd]
    | false =>
      have hsnpc : isTypJAL i.dinst = false → isTypJALR i.dinst = false →
          TrimmedPC.trim (snpc r i) = TrimmedPC.trim i.dinst.pc + 1 := by
        intro _ _
        -- a trap or return from one is never predicted, so the successor is the next word
        cases hsys : isTypSys i.dinst with
        | false => simp [snpc, hsys, trim_staticNext hd]
        | true =>
          have hprep : r.csr.csrPrepared = true := by
            rw [exuResultValid_of_sys hd hsys] at hres
            exact hres
          have hno := not_trap_of_predicted hd hwrong.1
          rw [snpc, hsys, if_pos rfl, (h.csr hprep).2.2, csrNextPC, hno.1, hno.2,
            ← trim_staticNext hd]
          rfl
      cases hjalr : isTypJALR i.dinst with
      | true =>
        have htyp : i.dinst.info.typ = .jalr := by
          simpa [isTypJALR] using hjalr
        simp [predictedNext, hk, hbr, hjalr, nxtPC, normalNxtPC, hloop, isTypJAL, htyp,
          TrimmedPC.trim_expand]
      | false =>
        cases hjal : isTypJAL i.dinst <;>
          simp [predictedNext, hk, hbr, hjalr, hjal, nxtPC, normalNxtPC, hloop, isFmtB_eq hd,
            TrimmedPC.trim_expand, hsnpc]

/-- A branch resolved in LSU never redirects from EXU. -/
theorem not_registered_of_immediate (hd : Decoded i.dinst)
    (himm : immediatePredWrong r i = true) : registeredBranchResolve i = false := by
  refine Bool.eq_false_iff.mpr fun hreg => ?_
  have hbr : isTypBranch i.dinst = true := by
    simp only [registeredBranchResolve, Bool.or_eq_true] at hreg
    rcases hreg with hlate | hadj
    · simp only [lateEqualityBranchResolve, Bool.and_eq_true] at hlate
      exact hlate.1.1.1
    · exact isTypBranch_of_adjacentFastBranch hd hadj
  have htyp : i.dinst.info.typ = .branch := by simpa [isTypBranch] using hbr
  have hloop : listReverseLoopBranch r i = false := by
    simp [listReverseLoopBranch, not_listReverseLoop hd (not_arithmetic_of_branch hbr)]
  have hwrong := not_notBranchPredWrong hd (by simp [isTypJAL, htyp]) (by simp [isTypJALR, htyp])
    (by simp [isTypSys, htyp])
  simp [immediatePredWrong, hloop, hreg, hwrong] at himm

theorem expand_trim_nxtPC (hpc : i.dinst.pc = TrimmedPC.expand (TrimmedPC.trim i.dinst.pc)) :
    TrimmedPC.expand (TrimmedPC.trim (nxtPC r i)) = nxtPC r i := by
  rw [nxtPC]
  split
  · exact hpc.symm
  · rw [normalNxtPC, TrimmedPC.trim_expand]

/-! ## The architectural continuation -/

/-- Where the instruction set continues after an instruction, given the outcome of a
branch or of a list-reversal step and the two trap registers. -/
def continuation (d : DecodedInst) (taken loopTaken : Bool) (mtvec mepc : Word) : Word :=
  let fallThrough := TrimmedPC.expand (TrimmedPC.trim d.pc + 1)
  if IDU.isListReverseLoopEncoding d.code then (if loopTaken then d.pc else fallThrough)
  else
    match (IDU.metaInfo d.code).typ with
    | .branch =>
      if taken then TrimmedPC.expand (TrimmedPC.trim (d.pc + IDU.imm d.code)) else fallThrough
    | .jal => TrimmedPC.expand (TrimmedPC.trim (d.pc + IDU.imm d.code))
    | .jalr => TrimmedPC.expand (TrimmedPC.trim (reg1AddImm d))
    | .system =>
      if IDU.isECall d.code then TrimmedPC.expand (TrimmedPC.trim mtvec)
      else if IDU.isMRet d.code then TrimmedPC.expand (TrimmedPC.trim mepc)
      else fallThrough
    | _ => fallThrough

theorem nxtPC_eq_continuation (h : Occupied r i.valid i.dinst) (hd : Decoded i.dinst)
    (hfire : inFire r i = true) :
    nxtPC r i =
      continuation i.dinst (takeBranch r i) r.listReverse.listReverseLoopTaken
        (ControlStatusRegisterFile.mtvec r.csr.csrs) (ControlStatusRegisterFile.mepc r.csr.csrs) := by
  have hres := h.exuResultValid_of_inFire hd hfire
  have hmeta : (IDU.metaInfo i.dinst.code).typ = i.dinst.info.typ := by rw [← hd.metaInfo_eq]
  cases hk : isListReverseLoop i.dinst with
  | true =>
    have htyp := typ_of_loop hd hk
    have hdone := listReverseDone_of_loop hd hk hres
    have hcode : IDU.isListReverseLoopEncoding i.dinst.code = true := hd.listReverseLoop_eq ▸ hk
    simp [nxtPC, normalNxtPC, snpc, continuation, listReverseLoopBranch, hk, hdone, hcode,
      isFmtB_eq hd, isTypJALR, isTypJAL, isTypBranch, isTypSys, htyp, trim_staticNext hd]
  | false =>
    have hcode : IDU.isListReverseLoopEncoding i.dinst.code = false := hd.listReverseLoop_eq ▸ hk
    have hnormal : nxtPC r i = normalNxtPC r i := by
      simp [nxtPC, listReverseLoopBranch, hk]
    rw [hnormal]
    cases htyp : i.dinst.info.typ with
    | system =>
      have hsys : isTypSys i.dinst = true := by simp [isTypSys, htyp]
      -- the target register was filled when the CSR access was prepared
      have hprep : r.csr.csrPrepared = true := by
        rw [exuResultValid_of_sys hd hsys] at hres
        exact hres
      have htrap := hd.trap_eq
      have hsnpc : snpc r i = csrNextPC r i.dinst := by
        rw [snpc, hsys, if_pos rfl, (h.csr hprep).2.2]
      simp only [normalNxtPC, continuation, hcode, hmeta, htyp, isFmtB_eq hd, isTypJALR,
        isTypJAL, isTypBranch, hsnpc, csrNextPC, htrap.1, htrap.2]
      cases IDU.isECall i.dinst.code <;> cases IDU.isMRet i.dinst.code <;>
        simp [trim_staticNext hd]
    | branch =>
      cases htake : takeBranch r i <;>
        simp [normalNxtPC, snpc, continuation, hcode, hmeta, htyp, isFmtB_eq hd, isTypJALR,
          isTypJAL, isTypBranch, isTypSys, trim_staticNext hd, hd.pcAddImm_eq, htake]
    | _ =>
      simp [normalNxtPC, snpc, continuation, hcode, hmeta, htyp, isFmtB_eq hd, isTypJALR,
        isTypJAL, isTypBranch, isTypSys, trim_staticNext hd, hd.pcAddImm_eq]

end EXU

end Core
end Jyd
