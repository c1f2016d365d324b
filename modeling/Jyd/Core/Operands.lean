import Jyd.Core.Issue
import Jyd.Core.Redirect

/-!
# Operands — every issued operand finds its value

`RegsOk` relates a sequential register file to the results that are still in LSU and
WBU.  `Issued` says where each operand of the instruction in EXU will come from; it
is established when IDU issues and kept while the instruction waits.
-/

namespace Jyd
namespace Core
namespace CPUCore

open Hdl

variable {r : Regs} {i : In} {S S' : RegisterFile.Regs}

/-! ## Results in flight -/

/-- LSU holds the result for register `x`. -/
def lsuWrites (r : Regs) (x : BitVec 5) : Bool :=
  (ResultLaneSelect.anyValid r.lsuPipe.bits.exuWriteBack && r.lsuPipe.valid) &&
    ResultLaneSelect.rd r.lsuPipe.bits.exuWriteBack == x && x != 0#5

/-- `S` is the register file once LSU and WBU have written their results. -/
structure RegsOk (r : Regs) (i : In) (S : RegisterFile.Regs) : Prop where
  zero : S 0 = 0
  lsu : ∀ x, lsuWrites r x = true → (ExtractFwdInfoFromLSU r.lsuPipe).dataVaild = true →
    S x = (ExtractFwdInfoFromLSU r.lsuPipe).data
  rest : ∀ x, lsuWrites r x = false → S x = RegisterFile.read r.gprs (gprWrite r i) x

/-- The payloads behind EXU come from decoded instructions. -/
structure Drained (r : Regs) : Prop where
  lsu : r.lsuPipe.valid = true →
    ∃ (e : EXU.Regs) (j : EXU.In), Decoded j.dinst ∧ r.lsuPipe.bits = EXU.outBits e j
  wbu : r.wbuPipe.valid = true →
    ∃ (e : EXU.Regs) (j : EXU.In) (data : Word), Decoded j.dinst ∧
      r.wbuPipe.bits = LSU.outBits ⟨true, EXU.outBits e j⟩ data

theorem lsuWrites_iff {x : BitVec 5} :
    lsuWrites r x = true ↔
      ResultLaneSelect.anyValid r.lsuPipe.bits.exuWriteBack = true ∧ r.lsuPipe.valid = true ∧
        ResultLaneSelect.rd r.lsuPipe.bits.exuWriteBack = x ∧ x ≠ 0#5 := by
  simp [lsuWrites, and_assoc]

theorem conflict_lsu {x : BitVec 5} :
    IDU.conflict x (ExtractFwdInfoFromLSU r.lsuPipe).addr (ExtractFwdInfoFromLSU r.lsuPipe).enWr =
      lsuWrites r x := by
  rw [Bool.eq_iff_iff, IDU.conflict_iff, lsuWrites_iff]
  simp only [ExtractFwdInfoFromLSU, Bool.and_eq_true]
  constructor
  · rintro ⟨rfl, h0, h⟩
    exact ⟨h.1, h.2, rfl, h0⟩
  · rintro ⟨ha, hv, rfl, h0⟩
    exact ⟨rfl, h0, ha, hv⟩

theorem resultKind_load {d : DecodedInst} (hd : Decoded d) :
    d.info.resultKind = .load ↔ EXU.isTypLoad d = true := by
  rcases hd with ⟨j, rfl⟩
  have hkind : (IDU.outBits j).info.resultKind = IDU.resultKind (IDU.inst j) := rfl
  have htyp : EXU.isTypLoad (IDU.outBits j) = IDU.isTyp (IDU.inst j) .load := rfl
  rw [hkind, htyp, IDU.resultKind]
  split
  · simp [*]
  · rename_i h
    simp only [h]
    split
    · simp
    · split
      · simp
      · split <;> simp

/-- Some lane is valid exactly when the instruction writes a register. -/
theorem anyValid_writeBackInfo {e : EXU.Regs} {j : EXU.In} (hd : Decoded j.dinst) :
    ResultLaneSelect.anyValid (EXU.writeBackInfo e j) = j.dinst.info.rdWrEn := by
  have hload := resultKind_load hd
  cases hk : j.dinst.info.resultKind <;> cases hen : j.dinst.info.rdWrEn <;>
    simp_all [ResultLaneSelect.anyValid, ResultLaneSelect.validVec, EXU.writeBackInfo,
      EXU.resultIsFast, EXU.resultIsLong, EXU.resultIsAccelerator]

/-- The load lane is valid exactly for loads. -/
theorem loadResult_valid {e : EXU.Regs} {j : EXU.In} (hd : Decoded j.dinst) :
    (EXU.writeBackInfo e j).loadResult.valid = EXU.isTypLoad j.dinst := by
  rcases hd with ⟨k, hk⟩
  have hen : j.dinst.info.rdWrEn = IDU.rdWrEn (IDU.inst k) := by
    rw [hk]
    rfl
  have htyp : EXU.isTypLoad j.dinst = IDU.isTyp (IDU.inst k) .load := by
    rw [hk]
    rfl
  simp only [EXU.writeBackInfo, hen, htyp]
  cases hl : IDU.isTyp (IDU.inst k) .load with
  | false => simp
  | true =>
    have ht : (IDU.metaInfo (IDU.inst k)).typ = .load := by simpa [IDU.isTyp] using hl
    simp [IDU.rdWrEn, IDU.isTyp, ht]

theorem nonLoadData_of_fast {e : EXU.Regs} {j : EXU.In}
    (h : (EXU.writeBackInfo e j).fastResult.valid = true) :
    ResultLaneSelect.nonLoadData (EXU.writeBackInfo e j) = (EXU.writeBackInfo e j).fastResult.data := by
  have hk : j.dinst.info.resultKind = .fastInt := by
    simp only [EXU.writeBackInfo, EXU.resultIsFast, Bool.and_eq_true, beq_iff_eq] at h
    exact h.2
  rw [ResultLaneSelect.nonLoadData]
  simp only [mux1H, h, if_true]
  simp [EXU.writeBackInfo, EXU.resultIsLong, EXU.resultIsAccelerator, hk]

/-! ## Where an operand comes from -/

/-- A late load on its way to the consumer: in LSU, in WBU, or captured in EXU. -/
inductive LatePhase (r : Regs) (rs : BitVec 5) (v : Word) : Prop
  | lsu (fresh : r.exu.capturedLateLoadValid = false) (writes : lsuWrites r rs = true)
      (isLoad : r.lsuPipe.bits.isLoad = true)
      (width : supportedLoadWidth r.lsuPipe.bits.func3t = true)
  | wbu (fresh : r.exu.capturedLateLoadValid = false) (empty : r.lsuPipe.valid = false)
      (valid : r.wbuPipe.valid = true) (isLoad : r.wbuPipe.bits.isLoad = true)
      (width : supportedLoadWidth r.wbuPipe.bits.lsuFunc3t = true)
      (rd : ResultLaneSelect.rd r.wbuPipe.bits = rs) (nonzero : rs ≠ 0#5)
  | captured (valid : r.exu.capturedLateLoadValid = true) (empty : r.lsuPipe.valid = false)
      (data : r.exu.capturedLateLoadData = v)

/-- The operand `rs` that was issued through `b` has, or will have, the value `v`. -/
structure Operand (r : Regs) (b : IDU.ByPass) (rs : BitVec 5) (v : Word) : Prop where
  plain : b.lateLoadSelect = false → b.adjacentFastSelect = false → b.outData = v
  adjacent : b.adjacentFastSelect = true →
    lsuWrites r rs = true ∧ r.lsuPipe.bits.exuWriteBack.fastResult.valid = true
  late : b.lateLoadSelect = true → LatePhase r rs v

/-- The instruction in EXU was issued by IDU under the inputs `j`. -/
structure Issued (r : Regs) (S : RegisterFile.Regs) (j : IDU.In) : Prop where
  bits : r.exuPipe.bits = IDU.outBits j
  exclusive : IDU.Exclusive j
  rs1 : IDU.isListReverseLoopEncoding (IDU.inst j) = false →
    IDU.needReg1AddImm (IDU.inst j) = false →
    Operand r (IDU.byPass1 j) (IDU.rs1 (IDU.inst j)) (S (IDU.rs1 (IDU.inst j)))
  rs2 : Operand r (IDU.byPass2 j) (IDU.rs2 (IDU.inst j)) (S (IDU.rs2 (IDU.inst j)))
  base : IDU.needReg1AddImm (IDU.inst j) = true →
    IDU.addressBase j = S (IDU.rs1 (IDU.inst j))
  other : r.exu.lateOtherOperandCaptured = true →
    r.exu.capturedLateOtherRegV1 = IDU.reg1 j ∧ r.exu.capturedLateOtherRegV2 = IDU.reg2 j

/-! ## Issue -/

theorem exclusive_iduIn (hd : exuInValid r = true → Decoded r.exuPipe.bits) :
    IDU.Exclusive (iduIn r i) := by
  intro hp
  have hparts : exuInValid r = true ∧ EXU.isTypLoad r.exuPipe.bits = true := by
    simp only [iduIn, EXU.lateLoadProducer, exuIn, Bool.and_eq_true] at hp
    exact hp.1
  refine Bool.eq_false_iff.mpr fun hfast => ?_
  have hno := (EXU.fast_of_dataVaild (i := exuIn r i) (hd hparts.1) hfast).2
  exact Bool.false_ne_true (hno.symm.trans hparts.2)

/-- An instruction that IDU replaces in EXU has completed, if it was valid at all. -/
theorem inFire_of_move (hv : exuInValid r = true)
    (hmove : r.exuPipe.allowIn (exuPipeReady r i) = true) : exuInFire r i = true := by
  rcases exuInValid_iff.mp hv with ⟨hpv, hepoch, hkill⟩
  have hmatch : exuEpochMatch r = true := by simp [exuEpochMatch, hepoch]
  have hready : EXU.inReady r.exu (exuIn r i) = true := by
    simpa [Pipe.allowIn, hpv, exuPipeReady, hmatch, hkill] using hmove
  have hval : (exuIn r i).valid = true := hv
  rw [exuInFire, EXU.inFire, hval, hready]
  rfl

/-- The register written by an instruction that completes in this cycle. -/
def completesInto (r : Regs) (i : In) (x : BitVec 5) : Bool :=
  exuInFire r i && r.exuPipe.bits.info.rdWrEn && r.exuPipe.bits.info.rd == x && x != 0#5

theorem not_completesInto {x : BitVec 5}
    (h : IDU.conflict x (EXU.fwd r.exu (exuIn r i)).addr (EXU.fwd r.exu (exuIn r i)).enWr = false) :
    completesInto r i x = false := by
  refine Bool.eq_false_iff.mpr fun hc => ?_
  simp only [completesInto, Bool.and_eq_true, beq_iff_eq, bne_iff_ne] at hc
  rcases hc with ⟨⟨⟨hfire, hen⟩, rfl⟩, h0⟩
  refine Bool.false_ne_true (h.symm.trans (IDU.conflict_iff.mpr ⟨rfl, h0, ?_⟩))
  simp [EXU.fwd, exuIn, hen, exuInValid_of_inFire hfire]

/-- The address operand at issue. -/
theorem base_of_issue (hregs : RegsOk r i S)
    (hS' : ∀ x, completesInto r i x = false → S' x = S x)
    (hs : IDU.needStallAddress (iduIn r i) = false)
    (hn : IDU.needReg1AddImm (IDU.inst (iduIn r i)) = true) :
    IDU.addressBase (iduIn r i) = S' (IDU.rs1 (IDU.inst (iduIn r i))) := by
  simp only [IDU.needStallAddress, Bool.or_eq_false_iff] at hs
  have hc : IDU.conflict (IDU.rs1 (IDU.inst (iduIn r i))) (EXU.fwd r.exu (exuIn r i)).addr
      (EXU.fwd r.exu (exuIn r i)).enWr = false := by
    have hc := hs.1
    rwa [IDU.addressExuConflict, hn, Bool.true_and] at hc
  rw [hS' _ (not_completesInto hc)]
  have hlsu : IDU.addressLsuConflict (iduIn r i) =
      lsuWrites r (IDU.rs1 (IDU.inst (iduIn r i))) := by
    rw [IDU.addressLsuConflict, hn, Bool.true_and, ← conflict_lsu]
    rfl
  cases hw : lsuWrites r (IDU.rs1 (IDU.inst (iduIn r i))) with
  | false =>
    rw [hregs.rest _ hw]
    simp [IDU.addressBase, IDU.addressLsuReady, hlsu, hw]
    rfl
  | true =>
    have hvalid : (iduIn r i).lsu.dataVaild = true := by
      simpa [hlsu, hw, IDU.addressLsuReady] using hs.2
    rw [hregs.lsu _ hw hvalid]
    simp [IDU.addressBase, IDU.addressLsuReady, hlsu, hw, hvalid]
    rfl

section Move

variable (hexu : ExuOk r) (hd : exuInValid r = true → Decoded r.exuPipe.bits)
  (hmove : r.exuPipe.allowIn (exuPipeReady r i) = true)

include hexu hd hmove

/-- A producer in EXU moves to LSU together with the issue. -/
theorem producer_moves {rs : BitVec 5}
    (hc : IDU.conflict rs (EXU.fwd r.exu (exuIn r i)).addr
      (EXU.fwd r.exu (exuIn r i)).enWr = true) :
    Decoded r.exuPipe.bits ∧ exuInFire r i = true ∧ r.exuPipe.bits.info.rdWrEn = true ∧
      lsuWrites (next r i) rs = true := by
  rcases IDU.conflict_iff.mp hc with ⟨hrd, h0, hen⟩
  have hparts : r.exuPipe.bits.info.rdWrEn = true ∧ exuInValid r = true := by
    simpa [EXU.fwd, exuIn] using hen
  have hfire := inFire_of_move hparts.2 hmove
  refine ⟨hd hparts.2, hfire, hparts.1, lsuWrites_iff.mpr ?_⟩
  rw [lsuPipe_next, exuOutValid_eq hexu]
  refine ⟨?_, hfire, hrd.symm, hrd ▸ h0⟩
  exact (anyValid_writeBackInfo (j := exuIn r i) (hd hparts.2)).trans hparts.1

section Mux

variable {rs : BitVec 5} {regData : Word} {allowLate allowFast : Bool}

theorem adjacent_of_mux
    (ha : (IDU.CacheAwareByPassMux rs regData (EXU.fwd r.exu (exuIn r i))
      (ExtractFwdInfoFromLSU r.lsuPipe)
      (EXU.lateLoadProducer (exuIn r i)) allowLate allowFast).adjacentFastSelect = true) :
    lsuWrites (next r i) rs = true ∧
      (next r i).lsuPipe.bits.exuWriteBack.fastResult.valid = true := by
  rcases producer_moves hexu hd hmove (IDU.exuConflict_of_select (Or.inr ha)) with
    ⟨hdec, _, hen, hwrites⟩
  refine ⟨hwrites, ?_⟩
  have hfast := (EXU.fast_of_dataVaild (i := exuIn r i) hdec (IDU.fast_of_select ha).2).1
  rw [lsuPipe_next]
  simp only [EXU.outBits, EXU.writeBackInfo, hfast, Bool.and_true]
  exact hen

theorem late_of_mux
    (hl : (IDU.CacheAwareByPassMux rs regData (EXU.fwd r.exu (exuIn r i))
      (ExtractFwdInfoFromLSU r.lsuPipe)
      (EXU.lateLoadProducer (exuIn r i)) allowLate allowFast).lateLoadSelect = true) :
    (next r i).exu.capturedLateLoadValid = false ∧ lsuWrites (next r i) rs = true ∧
      (next r i).lsuPipe.bits.isLoad = true ∧
      supportedLoadWidth (next r i).lsuPipe.bits.func3t = true := by
  rcases producer_moves hexu hd hmove (IDU.exuConflict_of_select (Or.inl hl)) with
    ⟨hdec, hfire, _, hwrites⟩
  have hload : EXU.isTypLoad r.exuPipe.bits = true ∧
      supportedLoadWidth (EXU.func3t r.exuPipe.bits) = true := by
    have hp := (IDU.late_of_select hl).2
    simp only [EXU.lateLoadProducer, exuIn, Bool.and_eq_true] at hp
    exact ⟨hp.1.2, hp.2⟩
  have hvac : EXU.Vacant (EXU.next r.exu (exuIn r i)) :=
    EXU.Occupied.vacant_next_of_inFire (i := exuIn r i) hexu hdec (exuOutReady_eq r) hfire
  refine ⟨hvac.captured, hwrites, ?_, ?_⟩
  · rw [lsuPipe_next]
    exact hload.1
  · rw [lsuPipe_next]
    exact hload.2

end Mux

/-- EXU has just let its last instruction go, so none of its registers is in use. -/
theorem vacant_of_move : EXU.Vacant (next r i).exu := by
  cases hv : exuInValid r with
  | true =>
    exact EXU.Occupied.vacant_next_of_inFire (i := exuIn r i) hexu (hd hv) (exuOutReady_eq r)
      (inFire_of_move hv hmove)
  | false => exact EXU.Occupied.vacant_next_of_invalid (i := exuIn r i) hexu hv

variable (hregs : RegsOk r i S) (hS' : ∀ x, completesInto r i x = false → S' x = S x)

include hregs hS'

/-- One operand at issue. -/
theorem operand_of_mux {rs : BitVec 5} {allowLate allowFast : Bool}
    (hs : (IDU.CacheAwareByPassMux rs (RegisterFile.read r.gprs (gprWrite r i) rs)
      (EXU.fwd r.exu (exuIn r i)) (ExtractFwdInfoFromLSU r.lsuPipe)
      (EXU.lateLoadProducer (exuIn r i)) allowLate allowFast).needStall = false) :
    Operand (next r i)
      (IDU.CacheAwareByPassMux rs (RegisterFile.read r.gprs (gprWrite r i) rs)
        (EXU.fwd r.exu (exuIn r i)) (ExtractFwdInfoFromLSU r.lsuPipe)
        (EXU.lateLoadProducer (exuIn r i)) allowLate allowFast) rs (S' rs) where
  plain := by
    intro hl ha
    have hc : IDU.conflict rs (EXU.fwd r.exu (exuIn r i)).addr
        (EXU.fwd r.exu (exuIn r i)).enWr = false := Bool.eq_false_iff.mpr fun hc => by
      rcases IDU.select_of_exuConflict hc hs with h | h
      · exact Bool.false_ne_true (hl.symm.trans h)
      · exact Bool.false_ne_true (ha.symm.trans h)
    rw [hS' rs (not_completesInto hc)]
    refine IDU.outData_of_no_exuConflict hc hs ?_ ?_
    · intro hlsu hv
      rw [conflict_lsu] at hlsu
      exact (hregs.lsu rs hlsu hv).symm
    · intro hlsu
      rw [conflict_lsu] at hlsu
      exact (hregs.rest rs hlsu).symm
  adjacent := adjacent_of_mux hexu hd hmove
  late := by
    intro hl
    rcases late_of_mux hexu hd hmove hl with ⟨hfresh, hwrites, hload, hwidth⟩
    exact LatePhase.lsu hfresh hwrites hload hwidth

theorem issued_of_move (hout : IDU.outValid (iduIn r i) = true) :
    Issued (next r i) S' (iduIn r i) := by
  have hstall : IDU.needStall (iduIn r i) = false := by
    simp only [IDU.outValid, Bool.and_eq_true, Bool.not_eq_true'] at hout
    exact hout.2
  simp only [IDU.needStall, Bool.or_eq_false_iff] at hstall
  have hvac := vacant_of_move hexu hd hmove
  refine ⟨?_, exclusive_iduIn hd, ?_, ?_, ?_, ?_⟩
  · simp [next, Pipe.next, hmove]
  · intro hloop hneed
    have hmux : IDU.byPass1 (iduIn r i) = IDU.CacheAwareByPassMux (IDU.rs1 (IDU.inst (iduIn r i)))
        (RegisterFile.read r.gprs (gprWrite r i) (IDU.rs1 (IDU.inst (iduIn r i))))
        (EXU.fwd r.exu (exuIn r i)) (ExtractFwdInfoFromLSU r.lsuPipe)
        (EXU.lateLoadProducer (exuIn r i)) (IDU.allowLateLoadRs1 (IDU.inst (iduIn r i)))
        (IDU.isFastIntegerArithmetic (IDU.inst (iduIn r i)) ||
          IDU.isTyp (IDU.inst (iduIn r i)) .branch) := by
      rw [IDU.byPass1, hloop, hneed]
      rfl
    have hs1 := hstall.1.1
    rw [hmux] at hs1 ⊢
    exact operand_of_mux hexu hd hmove hregs hS' hs1
  · exact operand_of_mux hexu hd hmove hregs hS' hstall.1.2
  · exact base_of_issue hregs hS' hstall.2
  · intro hother
    have hno : (next r i).exu.lateOtherOperandCaptured = false := hvac.other
    exact absurd (hno.symm.trans hother) (by decide)

end Move

/-! ## Waiting in EXU -/

/-- WBU delivers the late load to the sequential register file and to EXU alike. -/
theorem lateLoadWBU_data (hw : Drained r) (hregs : RegsOk r i S) {rs : BitVec 5}
    (hempty : r.lsuPipe.valid = false) (hv : r.wbuPipe.valid = true)
    (hload : r.wbuPipe.bits.isLoad = true) (hrd : ResultLaneSelect.rd r.wbuPipe.bits = rs)
    (h0 : rs ≠ 0#5) : (lateLoadWBU r i).data = S rs := by
  rcases hw.wbu hv with ⟨e, j, data, hd, hbits⟩
  have hkind : EXU.isTypLoad j.dinst = true := by
    rw [hbits] at hload
    exact hload
  have hvalid : r.wbuPipe.bits.loadResult.valid = true := by
    rw [hbits]
    exact (loadResult_valid (e := e) hd).trans hkind
  have hany : ResultLaneSelect.anyValid r.wbuPipe.bits = true := by
    simp [ResultLaneSelect.anyValid, ResultLaneSelect.validVec, hvalid]
  have hno : lsuWrites r rs = false := by simp [lsuWrites, hempty]
  rw [hregs.rest rs hno]
  simp [RegisterFile.read, RegisterFile.writeEn, gprWrite, WBU.gprEn, WBU.gprData, WBU.loadResult,
    lateLoadWBU, h0, hany, hv, hrd, hvalid]

/-- Once captured, a late load is used in the same cycle. -/
theorem inFire_of_captured {j : IDU.In} (hbits : r.exuPipe.bits = IDU.outBits j)
    (hv : exuInValid r = true) (hl : EXU.hasLateLoadOperand r.exuPipe.bits = true)
    (hc : r.exu.capturedLateLoadValid = true) (hempty : r.lsuPipe.valid = false) :
    exuInFire r i = true := by
  have hd : Decoded (exuIn r i).dinst := ⟨j, hbits⟩
  have hlsu : (exuIn r i).lateLoadLSU.valid = false := by simp [exuIn, lateLoadLSU, hempty]
  have hready : EXU.lateDataReady r.exu (exuIn r i) = true := by
    simp [EXU.lateDataReady, EXU.resolveLateLoadReady, hlsu, hc]
  have hres := (EXU.exuResultValid_of_late (r := r.exu) hd hl).trans hready
  rcases EXU.not_accelerator_of_late hd hl with ⟨hn, hlr, hx⟩
  have hout : (exuIn r i).outReady = true := exuOutReady_eq r
  have hval : (exuIn r i).valid = true := hv
  simp [exuInFire, EXU.inFire, EXU.inReady, EXU.isNumericDfaStep, hn, hlr, hx, hres, hout, hval,
    EXU.not_needMemReq_of_late hd hl]

/-- WBU delivers in this cycle, to a consumer in EXU, the values that `S` gives the registers. -/
def WbuDelivers (r : Regs) (i : In) (S : RegisterFile.Regs) : Prop :=
  ∀ rs, r.lsuPipe.valid = false → r.wbuPipe.valid = true → r.wbuPipe.bits.isLoad = true →
    ResultLaneSelect.rd r.wbuPipe.bits = rs → rs ≠ 0#5 → (lateLoadWBU r i).data = S rs

section Stay

variable (hexu : ExuOk r) (hwbu : WbuDelivers r i S) (hv : exuInValid r = true)
  (hfire : exuInFire r i = false)

include hexu hwbu hv hfire

theorem latePhase_of_stay {j : IDU.In} {rs : BitVec 5} (hbits : r.exuPipe.bits = IDU.outBits j)
    (hl : EXU.hasLateLoadOperand r.exuPipe.bits = true) (h : LatePhase r rs (S rs)) :
    LatePhase (next r i) rs (S rs) := by
  have hval : (exuIn r i).valid = true := hv
  -- EXU holds back, so a bubble follows the load down the pipeline
  have hempty' : (next r i).lsuPipe.valid = false := by
    rw [lsuPipe_next, exuOutValid_eq hexu]
    exact hfire
  have hfire' : EXU.inFire r.exu (exuIn r i) = false := hfire
  cases h with
  | lsu fresh writes isLoad width =>
    rcases lsuWrites_iff.mp writes with ⟨hany, hlv, hrd, h0⟩
    have hwbu := wbuPipe_next r i
    refine LatePhase.wbu ?_ hempty' ?_ ?_ ?_ ?_ h0
    · have hlate : (exuIn r i).lateLoadLSU.valid = true := by
        simp [exuIn, lateLoadLSU, hlv, isLoad, width]
      simp [next, EXU.next, hval, hfire', EXU.captureLateLoadWBU, hlate, fresh]
    · rw [hwbu]
      exact hlv
    · rw [hwbu]
      exact isLoad
    · rw [hwbu]
      exact width
    · rw [hwbu]
      exact hrd
  | wbu fresh empty valid isLoad width rd nonzero =>
    have hlate : (exuIn r i).lateLoadLSU.valid = false := by simp [exuIn, lateLoadLSU, empty]
    have hsource : (exuIn r i).lateLoadWBU.valid = true ∧
        (exuIn r i).lateLoadWBU.dataValid = true := by
      simp [exuIn, lateLoadWBU, valid, isLoad, width]
    refine LatePhase.captured ?_ hempty' ?_
    · have hl' : ((exuIn r i).dinst.info.lateLoadRs1 || (exuIn r i).dinst.info.lateLoadRs2) =
          true := hl
      simp [next, EXU.next, hval, hfire', EXU.captureLateLoadWBU, hl', hlate, hsource, fresh]
    · exact hwbu rs empty valid isLoad rd nonzero
  | captured valid empty data =>
    -- with the operand captured the instruction would have left
    have hyes := inFire_of_captured (i := i) hbits hv hl valid empty
    exact absurd (hfire.symm.trans hyes) (by decide)

theorem operand_of_stay {j : IDU.In} {b : IDU.ByPass} {rs : BitVec 5}
    (hbits : r.exuPipe.bits = IDU.outBits j) (hadj : b.adjacentFastSelect = false)
    (hl : b.lateLoadSelect = true → EXU.hasLateLoadOperand r.exuPipe.bits = true)
    (h : Operand r b rs (S rs)) : Operand (next r i) b rs (S rs) where
  plain := h.plain
  adjacent := fun ha => absurd (hadj.symm.trans ha) (by decide)
  late := fun hlate => latePhase_of_stay hexu hwbu hv hfire hbits (hl hlate) (h.late hlate)

/-- An instruction that carries no adjacent token keeps its operands while it waits. -/
theorem issued_of_stay {j : IDU.In}
    (hadj : ((IDU.byPass1 j).adjacentFastSelect || (IDU.byPass2 j).adjacentFastSelect) = false)
    (h : Issued r S j) : Issued (next r i) S j := by
  simp only [Bool.or_eq_false_iff] at hadj
  have hlate1 : (IDU.byPass1 j).lateLoadSelect = true →
      EXU.hasLateLoadOperand r.exuPipe.bits = true := by
    intro hl
    rw [h.bits]
    simp [EXU.hasLateLoadOperand, IDU.outBits, IDU.info, hl]
  have hlate2 : (IDU.byPass2 j).lateLoadSelect = true →
      EXU.hasLateLoadOperand r.exuPipe.bits = true := by
    intro hl
    rw [h.bits]
    simp [EXU.hasLateLoadOperand, IDU.outBits, IDU.info, hl]
  have hstays := exu_stays (i := i) hexu hv hfire
  refine ⟨hstays.2.trans h.bits, h.exclusive, ?_, ?_, h.base, ?_⟩
  · intro hloop hneed
    exact operand_of_stay hexu hwbu hv hfire h.bits hadj.1 hlate1 (h.rs1 hloop hneed)
  · exact operand_of_stay hexu hwbu hv hfire h.bits hadj.2 hlate2 h.rs2
  · -- the other operand of a late consumer is a plain register value
    have htok : (exuIn r i).dinst.info.adjacentFastBranch = false := by
      have hb : (exuIn r i).dinst = IDU.outBits j := h.bits
      rw [hb]
      simp [IDU.outBits, IDU.info, IDU.fastBranchRs1Token, IDU.fastBranchRs2Token, hadj]
    rcases EXU.branchRegV_of_no_token (i := exuIn r i) ⟨j, h.bits⟩ htok with ⟨hv1, hv2⟩
    have hreg1 : (exuIn r i).dinst.info.reg1 = IDU.reg1 j := by
      have hb : (exuIn r i).dinst = IDU.outBits j := h.bits
      rw [hb]
      rfl
    have hreg2 : (exuIn r i).dinst.info.reg2 = IDU.reg2 j := by
      have hb : (exuIn r i).dinst = IDU.outBits j := h.bits
      rw [hb]
      rfl
    intro hcap
    cases hold : r.exu.lateOtherOperandCaptured with
    | true =>
      have hkept := h.other hold
      simp only [next, EXU.next, hold, Bool.not_true, Bool.and_false, Bool.false_eq_true, if_false]
      exact hkept
    | false =>
      have hval : (exuIn r i).valid = true := hv
      have hfire' : EXU.inFire r.exu (exuIn r i) = false := hfire
      have hl : EXU.hasLateLoadOperand (exuIn r i).dinst = true := by
        simpa [next, EXU.next, hval, hfire', hold] using hcap
      simp only [next, EXU.next, hold, hl, Bool.not_false, Bool.and_true, if_true]
      exact ⟨hv1.trans hreg1, hv2.trans hreg2⟩

end Stay

/-- The instruction in EXU was issued with operands of the sequential register file. -/
def IssuedOk (r : Regs) (S : RegisterFile.Regs) : Prop :=
  exuInValid r = true → ∃ j, Issued r S j

theorem issuedOk_next (hw : Drained r) (hexu : ExuOk r)
    (hd : exuInValid r = true → Decoded r.exuPipe.bits) (hregs : RegsOk r i S)
    (hmem : i.dramReqReady = true) (hS' : ∀ x, completesInto r i x = false → S' x = S x)
    (h : IssuedOk r S) : IssuedOk (next r i) S' := by
  intro hv'
  cases hmove : r.exuPipe.allowIn (exuPipeReady r i) with
  | true =>
    have hpipe : (next r i).exuPipe =
        ⟨IDU.outValid (iduIn r i), IDU.outBits (iduIn r i)⟩ := by
      simp [next, Pipe.next, hmove]
    have hout : IDU.outValid (iduIn r i) = true := by
      have hpv := (exuInValid_iff.mp hv').1
      rwa [hpipe] at hpv
    exact ⟨iduIn r i, issued_of_move hexu hd hmove hregs hS' hout⟩
  | false =>
    have hparts : r.exuPipe.valid = true ∧ exuPipeReady r i = false := by
      simpa [Pipe.allowIn] using hmove
    have hready : EXU.inReady r.exu (exuIn r i) = false ∧ exuEpochMatch r = true ∧
        lateRedirectKill r = false := by
      simpa [exuPipeReady, and_assoc] using hparts.2
    have hv : exuInValid r = true := by
      rw [exuInValid, hparts.1, hready.2.1, hready.2.2]
      rfl
    have hfire : exuInFire r i = false := by
      rw [exuInFire, EXU.inFire, hready.1, Bool.and_false]
    have hsame : S' = S := by
      funext x
      exact hS' x (by simp [completesInto, hfire])
    rcases h hv with ⟨j, hj⟩
    -- an adjacent token would have been used at once
    have hadj : ((IDU.byPass1 j).adjacentFastSelect || (IDU.byPass2 j).adjacentFastSelect) =
        false := Bool.eq_false_iff.mpr fun ha => by
      have hyes := EXU.inFire_of_adjacent (r := r.exu) (i := exuIn r i) hj.bits hj.exclusive hv
        (exuOutReady_eq r) hmem ha
      exact Bool.false_ne_true (hfire.symm.trans hyes)
    have hwbu : WbuDelivers r i S := fun _ => lateLoadWBU_data hw hregs
    rw [hsame]
    exact ⟨j, issued_of_stay hexu hwbu hv hfire hadj hj⟩

end CPUCore
end Core
end Jyd
