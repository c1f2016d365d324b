import Jyd.Core.Operands

/-!
# OperandUse — what the functional units compute with

An issued instruction reads its plain operands from its payload in every cycle, its
adjacent operands from LSU in its first cycle and its late operands when they are
ready.  In each case the value is the one of the sequential register file.
-/

namespace Jyd
namespace Core
namespace CPUCore

open Hdl

variable {r : Regs} {i : In} {S : RegisterFile.Regs} {j : IDU.In}

/-! ## Values behind tokens -/

theorem adjacent_value (hw : Drained r) (hregs : RegsOk r i S) {rs : BitVec 5}
    (hwrites : lsuWrites r rs = true)
    (hfast : r.lsuPipe.bits.exuWriteBack.fastResult.valid = true) :
    (exuIn r i).previousStageFwd.data = S rs := by
  rcases lsuWrites_iff.mp hwrites with ⟨_, hv, _, _⟩
  rcases hw.lsu hv with ⟨e, k, hd, hbits⟩
  rw [hbits] at hfast
  have hkind : k.dinst.info.resultKind = .fastInt := by
    have hfast' : (EXU.writeBackInfo e k).fastResult.valid = true := hfast
    simp only [EXU.writeBackInfo, EXU.resultIsFast, Bool.and_eq_true, beq_iff_eq] at hfast'
    exact hfast'.2
  have hload : r.lsuPipe.bits.isLoad = false := by
    rw [hbits]
    refine Bool.eq_false_iff.mpr fun hl => ?_
    have hk := (resultKind_load hd).mpr hl
    rw [hkind] at hk
    cases hk
  have hdata : (ExtractFwdInfoFromLSU r.lsuPipe).dataVaild = true := by
    simp [ExtractFwdInfoFromLSU, hv, hload]
  rw [hregs.lsu rs hwrites hdata]
  simp only [ExtractFwdInfoFromLSU, hload, Bool.false_eq_true, if_false]
  rw [hbits]
  have hprev : (exuIn r i).previousStageFwd.data =
      r.lsuPipe.bits.exuWriteBack.fastResult.data := rfl
  rw [hprev, hbits]
  exact (nonLoadData_of_fast hfast).symm

/-- A hit in LSU delivers the late operand. -/
theorem lateLSU_value (hregs : RegsOk r i S) {rs : BitVec 5} (h : LatePhase r rs (S rs))
    (hv : (lateLoadLSU r).dataValid = true) : (lateLoadLSU r).data = S rs := by
  have hparts : r.lsuPipe.valid = true ∧ r.lsuPipe.bits.isLoad = true ∧
      r.lsuPipe.bits.cacheableLoad = true ∧ r.lsuPipe.bits.dcacheHit = true := by
    simp only [lateLoadLSU, Bool.and_eq_true] at hv
    exact ⟨hv.1.1.1.1, hv.1.1.1.2, hv.1.2, hv.2⟩
  cases h with
  | lsu _ writes isLoad _ =>
    have hdata : (ExtractFwdInfoFromLSU r.lsuPipe).dataVaild = true := by
      simp [ExtractFwdInfoFromLSU, hparts]
    rw [hregs.lsu rs writes hdata]
    simp [ExtractFwdInfoFromLSU, lateLoadLSU, hparts]
  | wbu _ empty _ _ _ _ _ => exact absurd (empty.symm.trans hparts.1) (by decide)
  | captured _ empty _ => exact absurd (empty.symm.trans hparts.1) (by decide)

/-- In this cycle the operand issued through `b` takes the value `v` wherever it is found. -/
structure Delivers (r : Regs) (i : In) (b : IDU.ByPass) (v : Word) : Prop where
  plain : b.lateLoadSelect = false → b.adjacentFastSelect = false → b.outData = v
  adjacent : b.adjacentFastSelect = true → (exuIn r i).previousStageFwd.data = v
  hit : b.lateLoadSelect = true → (lateLoadLSU r).dataValid = true → (lateLoadLSU r).data = v
  captured : b.lateLoadSelect = true → r.exu.capturedLateLoadValid = true →
    r.exu.capturedLateLoadData = v

theorem LatePhase.captured_value {rs : BitVec 5} {v : Word} (h : LatePhase r rs v)
    (hcap : r.exu.capturedLateLoadValid = true) : r.exu.capturedLateLoadData = v := by
  cases h with
  | lsu fresh _ _ _ => exact absurd (fresh.symm.trans hcap) (by decide)
  | wbu fresh _ _ _ _ _ _ => exact absurd (fresh.symm.trans hcap) (by decide)
  | captured _ _ data => exact data

theorem delivers_of_operand (hw : Drained r) (hregs : RegsOk r i S) {b : IDU.ByPass}
    {rs : BitVec 5} (h : Operand r b rs (S rs)) : Delivers r i b (S rs) where
  plain := h.plain
  adjacent := fun ha => adjacent_value hw hregs (h.adjacent ha).1 (h.adjacent ha).2
  hit := fun hl => lateLSU_value hregs (h.late hl)
  captured := fun hl => (h.late hl).captured_value

/-- A late operand that is ready has its value, from LSU or from the capture register. -/
theorem Delivers.late {b : IDU.ByPass} {v : Word} (h : Delivers r i b v)
    (hl : b.lateLoadSelect = true)
    (hready : EXU.resolveLateLoadReady r.exu (exuIn r i) true = true) (normal : Word) :
    EXU.resolveLateLoadData r.exu (exuIn r i) true normal = v := by
  cases hv : (lateLoadLSU r).valid with
  | true =>
    have hdv : (lateLoadLSU r).dataValid = true := by
      simpa [EXU.resolveLateLoadReady, exuIn, hv] using hready
    have hdata := h.hit hl hdv
    simpa [EXU.resolveLateLoadData, exuIn, hv] using hdata
  | false =>
    have hcap : r.exu.capturedLateLoadValid = true := by
      have hdv : (lateLoadLSU r).dataValid = false := by
        have hsame : (lateLoadLSU r).dataValid =
            ((lateLoadLSU r).valid && r.lsuPipe.bits.cacheableLoad && r.lsuPipe.bits.dcacheHit) :=
          rfl
        rw [hsame, hv]
        rfl
      simpa [EXU.resolveLateLoadReady, exuIn, hv, hdv] using hready
    have hdata := h.captured hl hcap
    simpa [EXU.resolveLateLoadData, exuIn, hv, hcap] using hdata

/-- In this cycle the instruction that IDU issued under the inputs `j` finds in its
operands the values that `S` gives their registers. -/
structure Delivered (r : Regs) (i : In) (S : RegisterFile.Regs) (j : IDU.In) : Prop where
  bits : r.exuPipe.bits = IDU.outBits j
  exclusive : IDU.Exclusive j
  rs1 : IDU.isListReverseLoopEncoding (IDU.inst j) = false →
    IDU.needReg1AddImm (IDU.inst j) = false →
    Delivers r i (IDU.byPass1 j) (S (IDU.rs1 (IDU.inst j)))
  rs2 : Delivers r i (IDU.byPass2 j) (S (IDU.rs2 (IDU.inst j)))
  other : r.exu.lateOtherOperandCaptured = true →
    r.exu.capturedLateOtherRegV1 = IDU.reg1 j ∧ r.exu.capturedLateOtherRegV2 = IDU.reg2 j

theorem delivered_of_issued (hw : Drained r) (hregs : RegsOk r i S) (h : Issued r S j) :
    Delivered r i S j where
  bits := h.bits
  exclusive := h.exclusive
  rs1 := fun hloop hneed => delivers_of_operand hw hregs (h.rs1 hloop hneed)
  rs2 := delivers_of_operand hw hregs h.rs2
  other := h.other

/-! ## Operands without tokens -/

theorem not_select1 (hl : IDU.allowLateLoadRs1 (IDU.inst j) = false)
    (hf : (IDU.isFastIntegerArithmetic (IDU.inst j) || IDU.isTyp (IDU.inst j) .branch) = false) :
    (IDU.byPass1 j).lateLoadSelect = false ∧ (IDU.byPass1 j).adjacentFastSelect = false := by
  refine ⟨Bool.eq_false_iff.mpr fun h => ?_, Bool.eq_false_iff.mpr fun h => ?_⟩
  · exact Bool.false_ne_true (hl.symm.trans (IDU.late_of_select h).1)
  · exact Bool.false_ne_true (hf.symm.trans (IDU.fast_of_select h).1)

theorem not_select2 (hl : IDU.isEqualityBranch (IDU.inst j) = false)
    (hf : (IDU.isFastIntegerArithmetic (IDU.inst j) || IDU.isTyp (IDU.inst j) .branch ||
      IDU.isTyp (IDU.inst j) .store) = false) :
    (IDU.byPass2 j).lateLoadSelect = false ∧ (IDU.byPass2 j).adjacentFastSelect = false := by
  refine ⟨Bool.eq_false_iff.mpr fun h => ?_, Bool.eq_false_iff.mpr fun h => ?_⟩
  · exact Bool.false_ne_true (hl.symm.trans (IDU.late_of_select h).1)
  · exact Bool.false_ne_true (hf.symm.trans (IDU.fast_of_select h).1)

/-- What an instruction may read from its payload in every cycle it spends in EXU. -/
structure HeldOperands (d : DecodedInst) (S : RegisterFile.Regs) : Prop where
  address : IDU.needReg1AddImm d.code = true →
    EXU.reg1AddImm d =
      0x80#8 ++ 0#2 ++ IDU.addAddrImm (S (IDU.rs1 d.code)) (IDU.addrImm12 d.code)
  system : EXU.isTypSys d = true → d.info.reg1 = S (IDU.rs1 d.code)
  special : EXU.isTypArithmetic d = true → EXU.resultIsFast d = false →
    EXU.isListReverseLoop d = false →
    d.info.reg1 = S (IDU.rs1 d.code) ∧
      d.info.reg2 = if EXU.isFmtI d then IDU.immI d.code else S (IDU.rs2 d.code)

theorem heldOperands (h : Issued r S j) : HeldOperands r.exuPipe.bits S := by
  rw [h.bits]
  have hcode : (IDU.outBits j).code = IDU.inst j := rfl
  refine ⟨?_, ?_, ?_⟩
  · intro hn
    rw [hcode] at hn ⊢
    rw [← h.base hn]
    rfl
  · intro hsys
    have htyp : (IDU.metaInfo (IDU.inst j)).typ = .system := by
      simpa [EXU.isTypSys, IDU.outBits, IDU.info] using hsys
    have hnotarith : (IDU.metaInfo (IDU.inst j)).typ ≠ .arithmetic := by simp [htyp]
    have hsel := not_select1 (j := j)
      (IDU.not_allowLate_of_typ hnotarith (by simp [htyp])).1
      (by simp [IDU.isFastIntegerArithmetic, IDU.isTyp, htyp])
    exact (h.rs1 (IDU.not_loop_of_typ hnotarith) (by simp [IDU.needReg1AddImm, IDU.isTyp, htyp])).plain
      hsel.1 hsel.2
  · intro harith hslow hloop
    have htyp : (IDU.metaInfo (IDU.inst j)).typ = .arithmetic := by
      simpa [EXU.isTypArithmetic, IDU.outBits, IDU.info] using harith
    have hkind : IDU.resultKind (IDU.inst j) ≠ .fastInt := by
      simpa [EXU.resultIsFast, IDU.outBits, IDU.info] using hslow
    have hfast : IDU.isFastIntegerArithmetic (IDU.inst j) = false :=
      Bool.eq_false_iff.mpr fun hf => hkind (IDU.resultKind_of_fast hf)
    have hbit : (IDU.isLateLoadAndi1 (IDU.inst j) || IDU.isLateLoadSrli1 (IDU.inst j)) = false :=
      Bool.eq_false_iff.mpr fun hf => hkind (IDU.resultKind_of_lateBit hf)
    have heq : IDU.isEqualityBranch (IDU.inst j) = false := by
      simp [IDU.isEqualityBranch, IDU.isTyp, htyp]
    have hbr : IDU.isTyp (IDU.inst j) .branch = false := by simp [IDU.isTyp, htyp]
    have hst : IDU.isTyp (IDU.inst j) .store = false := by simp [IDU.isTyp, htyp]
    have henc : IDU.isListReverseLoopEncoding (IDU.inst j) = false := by
      rw [Decoded.listReverseLoop_eq ⟨j, rfl⟩] at hloop
      exact hloop
    have hsel1 := not_select1 (j := j) (by rw [IDU.allowLateLoadRs1, hbit, heq]; rfl)
      (by rw [hfast, hbr]; rfl)
    have hsel2 := not_select2 (j := j) heq (by rw [hfast, hbr, hst]; rfl)
    refine ⟨(h.rs1 henc (by simp [IDU.needReg1AddImm, IDU.isTyp, htyp])).plain hsel1.1 hsel1.2, ?_⟩
    have hreg2 : (IDU.outBits j).info.reg2 =
        if IDU.isFmtI (IDU.inst j) then IDU.immI (IDU.inst j) else (IDU.byPass2 j).outData := rfl
    rw [hreg2, h.rs2.plain hsel2.1 hsel2.2]
    rfl

/-! ## Operands at completion -/

/-- What an instruction has computed with when it completes. -/
structure UsedOperands (e : EXU.Regs) (k : EXU.In) (S : RegisterFile.Regs) : Prop where
  fast : EXU.isTypArithmetic k.dinst = true → EXU.resultIsFast k.dinst = true →
    (EXU.writeBackInfo e k).fastResult.data =
      FastIntegerALU.outBits
        { isImm := EXU.isFmtI k.dinst
          isSub := k.dinst.info.aluIsSub
          func3t := EXU.func3t k.dinst
          func7t := EXU.func7t k.dinst
          src1 := S (IDU.rs1 k.dinst.code)
          src2 := if EXU.isFmtI k.dinst then IDU.immI k.dinst.code else S (IDU.rs2 k.dinst.code) }
  branch : EXU.isTypBranch k.dinst = true →
    EXU.takeBranch e k =
      EXU.branchCondition k.dinst (S (IDU.rs1 k.dinst.code) == S (IDU.rs2 k.dinst.code))
        ((S (IDU.rs1 k.dinst.code)).slt (S (IDU.rs2 k.dinst.code)))
        ((S (IDU.rs1 k.dinst.code)).ult (S (IDU.rs2 k.dinst.code)))
  store : EXU.isTypStore k.dinst = true → EXU.storeRegV2 k = S (IDU.rs2 k.dinst.code)

/-- The immediate formats have no second register operand. -/
theorem not_adjacent2_of_imm (hfmt : IDU.isFmtI (IDU.inst j) = true) :
    (IDU.byPass2 j).adjacentFastSelect = false := by
  refine Bool.eq_false_iff.mpr fun h => ?_
  have hconf := IDU.exuConflict_of_select (Or.inr h)
  rcases IDU.conflict_iff.mp hconf with ⟨hrs, h0, _⟩
  have hzero : IDU.rs2 (IDU.inst j) = 0#5 := by
    have hfmt' : IDU.isFmt (IDU.inst j) .imm = true := hfmt
    simp [IDU.rs2, IDU.noNeedRs2, hfmt']
  exact h0 (hrs.symm.trans hzero)

/-- An adjacent token of an instruction that is no branch is an ALU token. -/
theorem fastAluRs1Token_eq (hbr : IDU.isTyp (IDU.inst j) .branch = false) :
    IDU.fastAluRs1Token j = (IDU.byPass1 j).adjacentFastSelect := by
  cases ha : (IDU.byPass1 j).adjacentFastSelect with
  | false => simp [IDU.fastAluRs1Token, ha]
  | true =>
    have hallow := (IDU.fast_of_select ha).1
    rw [hbr, Bool.or_false] at hallow
    simp [IDU.fastAluRs1Token, ha, hallow]

theorem fastAluRs2Token_eq (hbr : IDU.isTyp (IDU.inst j) .branch = false)
    (hst : IDU.isTyp (IDU.inst j) .store = false) :
    IDU.fastAluRs2Token j = (IDU.byPass2 j).adjacentFastSelect := by
  cases ha : (IDU.byPass2 j).adjacentFastSelect with
  | false => simp [IDU.fastAluRs2Token, ha]
  | true =>
    have hallow := (IDU.fast_of_select ha).1
    rw [hbr, hst, Bool.or_false, Bool.or_false] at hallow
    simp [IDU.fastAluRs2Token, ha, hallow]

/-- What the fast lane is to compute with. -/
def fastOperands (S : RegisterFile.Regs) (j : IDU.In) : FastIntegerALUInput where
  isImm := IDU.isFmtI (IDU.inst j)
  isSub := (IDU.outBits j).info.aluIsSub
  func3t := EXU.func3t (IDU.outBits j)
  func7t := EXU.func7t (IDU.outBits j)
  src1 := S (IDU.rs1 (IDU.inst j))
  src2 := if IDU.isFmtI (IDU.inst j) then IDU.immI (IDU.inst j) else S (IDU.rs2 (IDU.inst j))

/-- What a branch does on the values that `S` gives its registers. -/
def outcome (d : DecodedInst) (S : RegisterFile.Regs) (code : Word) : Bool :=
  EXU.branchCondition d (S (IDU.rs1 code) == S (IDU.rs2 code))
    ((S (IDU.rs1 code)).slt (S (IDU.rs2 code))) ((S (IDU.rs1 code)).ult (S (IDU.rs2 code)))

section Use

variable (h : Delivered r i S j)

include h

/-- An operand that is not late is its register value, adjacent or plain. -/
theorem operand1_value (hloop : IDU.isListReverseLoopEncoding (IDU.inst j) = false)
    (hneed : IDU.needReg1AddImm (IDU.inst j) = false)
    (hl : (IDU.byPass1 j).lateLoadSelect = false) :
    (if (IDU.byPass1 j).adjacentFastSelect then (exuIn r i).previousStageFwd.data else IDU.reg1 j) =
      S (IDU.rs1 (IDU.inst j)) := by
  have hop := h.rs1 hloop hneed
  cases ha : (IDU.byPass1 j).adjacentFastSelect with
  | true => exact hop.adjacent ha
  | false => exact hop.plain hl ha

theorem operand2_value (hfmt : IDU.isFmtI (IDU.inst j) = false)
    (hl : (IDU.byPass2 j).lateLoadSelect = false) :
    (if (IDU.byPass2 j).adjacentFastSelect then (exuIn r i).previousStageFwd.data else IDU.reg2 j) =
      S (IDU.rs2 (IDU.inst j)) := by
  have hreg2 : IDU.reg2 j = (IDU.byPass2 j).outData := by simp [IDU.reg2, hfmt]
  cases ha : (IDU.byPass2 j).adjacentFastSelect with
  | true => exact h.rs2.adjacent ha
  | false => exact hreg2.trans (h.rs2.plain hl ha)

/-- The two fixed operations on a late load. -/
theorem used_fast_late (htyp : (IDU.metaInfo (IDU.inst j)).typ = .arithmetic)
    (hloop : IDU.isListReverseLoopEncoding (IDU.inst j) = false)
    (hres : EXU.exuResultValid r.exu (exuIn r i) = true)
    (hhas : EXU.hasLateLoadOperand (exuIn r i).dinst = true)
    (hl1 : (IDU.byPass1 j).lateLoadSelect = true) :
    (EXU.writeBackInfo r.exu (exuIn r i)).fastResult.data =
      FastIntegerALU.outBits (fastOperands S j) := by
  have hbits : (exuIn r i).dinst = IDU.outBits j := h.bits
  have hneed : IDU.needReg1AddImm (IDU.inst j) = false := by
    simp [IDU.needReg1AddImm, IDU.isTyp, htyp]
  have heq : IDU.isEqualityBranch (IDU.inst j) = false := by
    simp [IDU.isEqualityBranch, IDU.isTyp, htyp]
  have hclass : (IDU.isLateLoadAndi1 (IDU.inst j) || IDU.isLateLoadSrli1 (IDU.inst j)) =
      true := by
    rcases EXU.late_class hbits hhas with hc | hc
    · exact hc
    · exact absurd (heq.symm.trans hc) (by decide)
  rw [EXU.exuResultValid_of_late ⟨j, hbits⟩ hhas] at hres
  have hlate : (exuIn r i).dinst.info.lateLoadRs1 = true := by
    rw [hbits]
    exact hl1
  have hready : EXU.resolveLateLoadReady r.exu (exuIn r i) true = true := by
    simp only [EXU.lateDataReady, Bool.and_eq_true, hlate] at hres
    exact hres.1
  have hvalue := (h.rs1 hloop hneed).late hl1 hready (EXU.branchRegV1 (exuIn r i))
  have hf3 : EXU.func3t (exuIn r i).dinst = (IDU.inst j).extractLsb' 12 3 := by
    rw [hbits]
    rfl
  rcases IDU.lateBit_class hclass with ⟨_, hfmt, _, _, h3⟩
  have hbit : EXU.isLateLoadBit (exuIn r i).dinst = true := by
    have h3' : (IDU.inst j).extractLsb' 12 3 = 0b111#3 ∨
        (IDU.inst j).extractLsb' 12 3 = 0b101#3 := h3
    rcases h3' with h3' | h3' <;>
      simp [EXU.isLateLoadBit, EXU.isLateLoadAndi1, EXU.isLateLoadSrli1, hhas, hf3, h3']
  have handi : EXU.isLateLoadAndi1 (exuIn r i).dinst =
      ((IDU.inst j).extractLsb' 12 3 == 0b111#3) := by
    rw [EXU.isLateLoadAndi1, hhas, hf3, Bool.true_and]
  simp only [EXU.writeBackInfo, hbit, if_true, EXU.lateBitResult, handi, EXU.lateRegV1, hlate,
    hvalue, fastOperands]
  rw [@EXU.lateBit_eq _ (IDU.outBits j).info.aluIsSub hclass, hfmt]
  rfl

/-- The fast lane on operands that are not late. -/
theorem used_fast_now (htyp : (IDU.metaInfo (IDU.inst j)).typ = .arithmetic)
    (hloop : IDU.isListReverseLoopEncoding (IDU.inst j) = false)
    (hhas : EXU.hasLateLoadOperand (exuIn r i).dinst = false)
    (hl1 : (IDU.byPass1 j).lateLoadSelect = false)
    (hl2 : (IDU.byPass2 j).lateLoadSelect = false) :
    (EXU.writeBackInfo r.exu (exuIn r i)).fastResult.data =
      FastIntegerALU.outBits (fastOperands S j) := by
  have hbits : (exuIn r i).dinst = IDU.outBits j := h.bits
  have hbr : IDU.isTyp (IDU.inst j) .branch = false := by simp [IDU.isTyp, htyp]
  have hst : IDU.isTyp (IDU.inst j) .store = false := by simp [IDU.isTyp, htyp]
  have hneed : IDU.needReg1AddImm (IDU.inst j) = false := by
    simp [IDU.needReg1AddImm, IDU.isTyp, htyp]
  have hbit : EXU.isLateLoadBit (exuIn r i).dinst = false := by
    simp [EXU.isLateLoadBit, EXU.isLateLoadAndi1, EXU.isLateLoadSrli1, hhas]
  have hv1 : EXU.fastRegV1 (exuIn r i) = S (IDU.rs1 (IDU.inst j)) := by
    rw [EXU.fastRegV1_eq hbits, fastAluRs1Token_eq hbr]
    exact operand1_value h hloop hneed hl1
  have hv2 : EXU.fastRegV2 (exuIn r i) =
      if IDU.isFmtI (IDU.inst j) then IDU.immI (IDU.inst j) else S (IDU.rs2 (IDU.inst j)) := by
    rw [EXU.fastRegV2_eq hbits, fastAluRs2Token_eq hbr hst]
    cases hfmt : IDU.isFmtI (IDU.inst j) with
    | true => simp [not_adjacent2_of_imm hfmt, IDU.reg2, hfmt]
    | false => exact operand2_value h hfmt hl2
  simp only [EXU.writeBackInfo, hbit, Bool.false_eq_true, if_false, EXU.fastIntegerOut, EXU.fastIn,
    hv1, hv2]
  rw [hbits]
  rfl

/-- The fast lane computes with the sequential register values. -/
theorem used_fast (hres : EXU.exuResultValid r.exu (exuIn r i) = true)
    (harith : EXU.isTypArithmetic r.exuPipe.bits = true)
    (hfast : EXU.resultIsFast r.exuPipe.bits = true) :
    (EXU.writeBackInfo r.exu (exuIn r i)).fastResult.data =
      FastIntegerALU.outBits (fastOperands S j) := by
  have hbits : (exuIn r i).dinst = IDU.outBits j := h.bits
  have htyp : (IDU.metaInfo (IDU.inst j)).typ = .arithmetic := by
    rw [h.bits] at harith
    simpa [EXU.isTypArithmetic, IDU.outBits, IDU.info] using harith
  have hkind : IDU.resultKind (IDU.inst j) = .fastInt := by
    rw [h.bits] at hfast
    simpa [EXU.resultIsFast, IDU.outBits, IDU.info] using hfast
  have heq : IDU.isEqualityBranch (IDU.inst j) = false := by
    simp [IDU.isEqualityBranch, IDU.isTyp, htyp]
  -- the loop instruction is an accelerator, whose result is not of the fast kind
  have hloop : IDU.isListReverseLoopEncoding (IDU.inst j) = false :=
    Bool.eq_false_iff.mpr fun henc => by
      have hcustom := IDU.listReverseLoop_listReverse _ henc
      have hacc : IDU.isAccelerator (IDU.inst j) = true := by simp [IDU.isAccelerator, hcustom]
      simp [IDU.resultKind, IDU.isTyp, htyp, hacc] at hkind
  have hl2 : (IDU.byPass2 j).lateLoadSelect = false := Bool.eq_false_iff.mpr fun hl =>
    Bool.false_ne_true (heq.symm.trans (IDU.late_of_select hl).1)
  have hhas : EXU.hasLateLoadOperand (exuIn r i).dinst = (IDU.byPass1 j).lateLoadSelect := by
    rw [hbits]
    simp [EXU.hasLateLoadOperand, IDU.outBits, IDU.info, hl2]
  cases hl1 : (IDU.byPass1 j).lateLoadSelect with
  | true => exact used_fast_late h htyp hloop hres (hhas.trans hl1) hl1
  | false => exact used_fast_now h htyp hloop (hhas.trans hl1) hl1 hl2

theorem used_store (hst : EXU.isTypStore r.exuPipe.bits = true) :
    EXU.storeRegV2 (exuIn r i) = S (IDU.rs2 (IDU.inst j)) := by
  have hbits : (exuIn r i).dinst = IDU.outBits j := h.bits
  have htyp : (IDU.metaInfo (IDU.inst j)).typ = .store := by
    rw [h.bits] at hst
    simpa [EXU.isTypStore, IDU.outBits, IDU.info] using hst
  have hfmt : IDU.isFmtI (IDU.inst j) = false := by
    rcases IDU.metaInfo_eq (IDU.inst j) with hm | hm | hm | hm | hm | hm | hm | hm | hm | hm <;>
      simp_all [IDU.isFmtI, IDU.isFmt]
  have hl2 : (IDU.byPass2 j).lateLoadSelect = false := Bool.eq_false_iff.mpr fun hl => by
    have heq := (IDU.late_of_select hl).1
    simp [IDU.isEqualityBranch, IDU.isTyp, htyp] at heq
  have htok : IDU.fastStoreRs2Token j = (IDU.byPass2 j).adjacentFastSelect := by
    simp [IDU.fastStoreRs2Token, IDU.isTyp, htyp]
  rw [EXU.storeRegV2_eq hbits, htok]
  exact operand2_value h hfmt hl2

/-- The operand of an equality branch that is not late, captured or not. -/
theorem stableLateOther_value (hnotok : (IDU.byPass1 j).adjacentFastSelect = false ∧
      (IDU.byPass2 j).adjacentFastSelect = false) :
    EXU.stableLateOtherRegV1 r.exu (exuIn r i) = IDU.reg1 j ∧
      EXU.stableLateOtherRegV2 r.exu (exuIn r i) = IDU.reg2 j := by
  have hbits : (exuIn r i).dinst = IDU.outBits j := h.bits
  cases hc : r.exu.lateOtherOperandCaptured with
  | true =>
    simp only [EXU.stableLateOtherRegV1, EXU.stableLateOtherRegV2, hc, if_true]
    exact h.other hc
  | false =>
    simp only [EXU.stableLateOtherRegV1, EXU.stableLateOtherRegV2, hc, Bool.false_eq_true, if_false]
    rw [EXU.branchRegV1_eq hbits, EXU.branchRegV2_eq hbits, hbits]
    simp only [IDU.fastBranchRs1Token, IDU.fastBranchRs2Token, hnotok, Bool.false_and,
      Bool.false_eq_true, if_false]
    exact ⟨rfl, rfl⟩

/-- The equality test of a branch with a late operand. -/
theorem isEqual_of_late (hlate : EXU.hasLateLoadOperand r.exuPipe.bits = true)
    (hready : EXU.lateDataReady r.exu (exuIn r i) = true)
    (hloop : IDU.isListReverseLoopEncoding (IDU.inst j) = false)
    (hneed : IDU.needReg1AddImm (IDU.inst j) = false)
    (hfmt : IDU.isFmtI (IDU.inst j) = false) :
    EXU.isEqual r.exu (exuIn r i) = (S (IDU.rs1 (IDU.inst j)) == S (IDU.rs2 (IDU.inst j))) := by
  have hbits : (exuIn r i).dinst = IDU.outBits j := h.bits
  have hlate' : ((IDU.byPass1 j).lateLoadSelect || (IDU.byPass2 j).lateLoadSelect) = true := by
    rw [h.bits] at hlate
    exact hlate
  have hnotok := IDU.not_adjacent_of_late h.exclusive hlate'
  rcases stableLateOther_value (i := i) h hnotok with ⟨hother1, hother2⟩
  have hrs1 : (exuIn r i).dinst.info.lateLoadRs1 = (IDU.byPass1 j).lateLoadSelect := by
    rw [hbits]
    rfl
  have hrs2 : (exuIn r i).dinst.info.lateLoadRs2 = (IDU.byPass2 j).lateLoadSelect := by
    rw [hbits]
    rfl
  have hhas : EXU.hasLateLoadOperand (exuIn r i).dinst = true := hlate
  have hplain1 : (IDU.byPass1 j).lateLoadSelect = false →
      IDU.reg1 j = S (IDU.rs1 (IDU.inst j)) := fun hl => (h.rs1 hloop hneed).plain hl hnotok.1
  have hplain2 : (IDU.byPass2 j).lateLoadSelect = false →
      IDU.reg2 j = S (IDU.rs2 (IDU.inst j)) := by
    intro hl
    rw [← h.rs2.plain hl hnotok.2]
    simp [IDU.reg2, hfmt]
  cases hdv : (lateLoadLSU r).dataValid with
  | true =>
    -- a hit in LSU is compared in raw form
    have hraw : ∀ other, EXU.rawLoadEqual (lateLoadLSU r).rawData (lateLoadLSU r).offset
        (lateLoadLSU r).func3t other = ((lateLoadLSU r).data == other) :=
      fun _ => EXU.rawLoadEqual_eq
    have huse : EXU.useRegisteredRawLoadEqual (exuIn r i) = true := by
      rw [EXU.useRegisteredRawLoadEqual, hhas]
      exact hdv
    rw [EXU.isEqual, huse, if_pos rfl, EXU.lsuLateEqual, hrs1, hrs2, hother1, hother2]
    cases h1 : (IDU.byPass1 j).lateLoadSelect with
    | true =>
      have hv1 := (h.rs1 hloop hneed).hit h1 hdv
      cases h2 : (IDU.byPass2 j).lateLoadSelect with
      | true =>
        have hv2 := h.rs2.hit h2 hdv
        simp [← hv1, ← hv2]
      | false =>
        rw [← hv1, ← hplain2 h2]
        exact hraw _
    | false =>
      have h2 : (IDU.byPass2 j).lateLoadSelect = true := by simpa [h1] using hlate'
      have hv2 := h.rs2.hit h2 hdv
      rw [← hv2, ← hplain1 h1, Bool.beq_comm]
      exact hraw _
  | false =>
    have huse : EXU.useRegisteredRawLoadEqual (exuIn r i) = false := by
      rw [EXU.useRegisteredRawLoadEqual, hhas]
      exact hdv
    simp only [EXU.lateDataReady, Bool.and_eq_true, hrs1, hrs2] at hready
    have hv1 : EXU.equalityRegV1 r.exu (exuIn r i) = S (IDU.rs1 (IDU.inst j)) := by
      cases h1 : (IDU.byPass1 j).lateLoadSelect with
      | true =>
        rw [h1] at hready
        have hv := (h.rs1 hloop hneed).late h1 hready.1 (EXU.branchRegV1 (exuIn r i))
        simpa [EXU.equalityRegV1, EXU.lateRegV1, hrs1, h1] using hv
      | false => simpa [EXU.equalityRegV1, hrs1, h1, hother1] using hplain1 h1
    have hv2 : EXU.equalityRegV2 r.exu (exuIn r i) = S (IDU.rs2 (IDU.inst j)) := by
      cases h2 : (IDU.byPass2 j).lateLoadSelect with
      | true =>
        rw [h2] at hready
        have hv := h.rs2.late h2 hready.2 (EXU.branchRegV2 (exuIn r i))
        simpa [EXU.equalityRegV2, EXU.lateRegV2, hrs2, h2] using hv
      | false => simpa [EXU.equalityRegV2, hrs2, h2, hother2] using hplain2 h2
    rw [EXU.isEqual, huse, if_neg (by decide), EXU.extendedLoadEqual_eq, hv1, hv2]

/-- A branch on a late operand, which only `beq` and `bne` can have. -/
theorem used_branch_late (htyp : (IDU.metaInfo (IDU.inst j)).typ = .branch)
    (hfmt : IDU.isFmtI (IDU.inst j) = false)
    (hlate : EXU.hasLateLoadOperand r.exuPipe.bits = true)
    (hready : EXU.lateDataReady r.exu (exuIn r i) = true) :
    EXU.takeBranch r.exu (exuIn r i) = outcome r.exuPipe.bits S (IDU.inst j) := by
  have hneed : IDU.needReg1AddImm (IDU.inst j) = false := by
    simp [IDU.needReg1AddImm, IDU.isTyp, htyp]
  have hloop := @IDU.not_loop_of_typ (IDU.inst j) (by simp [htyp])
  have hclass : IDU.isEqualityBranch (IDU.inst j) = true := by
    rcases EXU.late_class (i := exuIn r i) h.bits hlate with hc | hc
    · have hc' := (IDU.lateBit_class hc).1
      simp [IDU.isTyp, htyp] at hc'
    · exact hc
  -- the orderings play no part in `beq` and `bne`
  have hcond : ∀ e a b a' b', EXU.branchCondition r.exuPipe.bits e a b =
      EXU.branchCondition r.exuPipe.bits e a' b' := by
    intro e a b a' b'
    rw [h.bits]
    rcases IDU.func3_of_equalityBranch hclass with hf | hf <;>
      simp [EXU.branchCondition, mux1HBool, IDU.outBits, IDU.info, hf]
  rw [EXU.takeBranch, isEqual_of_late h hlate hready hloop hneed hfmt]
  exact hcond _ _ _ _ _

/-- A branch whose operands are plain or adjacent. -/
theorem used_branch_now (hexu : ExuOk r) (htyp : (IDU.metaInfo (IDU.inst j)).typ = .branch)
    (hfmt : IDU.isFmtI (IDU.inst j) = false)
    (hlate : EXU.hasLateLoadOperand r.exuPipe.bits = false) :
    EXU.takeBranch r.exu (exuIn r i) = outcome r.exuPipe.bits S (IDU.inst j) := by
  have hbits : (exuIn r i).dinst = IDU.outBits j := h.bits
  have hneed : IDU.needReg1AddImm (IDU.inst j) = false := by
    simp [IDU.needReg1AddImm, IDU.isTyp, htyp]
  have hloop := @IDU.not_loop_of_typ (IDU.inst j) (by simp [htyp])
  have hnone : (IDU.byPass1 j).lateLoadSelect = false ∧
      (IDU.byPass2 j).lateLoadSelect = false := by
    rw [h.bits] at hlate
    simpa [EXU.hasLateLoadOperand, IDU.outBits, IDU.info] using hlate
  have hv1 : EXU.branchRegV1 (exuIn r i) = S (IDU.rs1 (IDU.inst j)) := by
    have htok : IDU.fastBranchRs1Token j = (IDU.byPass1 j).adjacentFastSelect := by
      simp [IDU.fastBranchRs1Token, IDU.isTyp, htyp]
    rw [EXU.branchRegV1_eq hbits, htok, hbits]
    exact operand1_value h hloop hneed hnone.1
  have hv2 : EXU.branchRegV2 (exuIn r i) = S (IDU.rs2 (IDU.inst j)) := by
    have htok : IDU.fastBranchRs2Token j = (IDU.byPass2 j).adjacentFastSelect := by
      simp [IDU.fastBranchRs2Token, IDU.isTyp, htyp]
    rw [EXU.branchRegV2_eq hbits, htok, hbits]
    exact operand2_value h hfmt hnone.2
  -- the copy of the other operand belongs to late branches
  have hother : r.exu.lateOtherOperandCaptured = false := Bool.eq_false_iff.mpr fun hc =>
    Bool.false_ne_true (hlate.symm.trans (EXU.Occupied.other hexu hc).2)
  have heq : EXU.isEqual r.exu (exuIn r i) =
      (S (IDU.rs1 (IDU.inst j)) == S (IDU.rs2 (IDU.inst j))) := by
    have hhas : EXU.hasLateLoadOperand (exuIn r i).dinst = false := hlate
    have hrs : (exuIn r i).dinst.info.lateLoadRs1 = false ∧
        (exuIn r i).dinst.info.lateLoadRs2 = false := by
      rw [hbits]
      exact hnone
    simp [EXU.isEqual, EXU.useRegisteredRawLoadEqual, hhas, EXU.extendedLoadEqual_eq,
      EXU.equalityRegV1, EXU.equalityRegV2, EXU.stableLateOtherRegV1, EXU.stableLateOtherRegV2,
      hrs, hother, hv1, hv2]
  rw [EXU.takeBranch, heq, hv1, hv2]
  rfl

theorem used_branch (hexu : ExuOk r) (hres : EXU.exuResultValid r.exu (exuIn r i) = true)
    (hbr : EXU.isTypBranch r.exuPipe.bits = true) :
    EXU.takeBranch r.exu (exuIn r i) = outcome r.exuPipe.bits S (IDU.inst j) := by
  have htyp : (IDU.metaInfo (IDU.inst j)).typ = .branch := by
    rw [h.bits] at hbr
    simpa [EXU.isTypBranch, IDU.outBits, IDU.info] using hbr
  have hfmt : IDU.isFmtI (IDU.inst j) = false := by
    have hfmt := (IDU.fmt_branch_iff (IDU.inst j)).mpr htyp
    simp [IDU.isFmtI, IDU.isFmt, hfmt]
  cases hlate : EXU.hasLateLoadOperand r.exuPipe.bits with
  | true =>
    have hready : EXU.lateDataReady r.exu (exuIn r i) = true :=
      (EXU.exuResultValid_of_late (i := exuIn r i) ⟨j, h.bits⟩ hlate).symm.trans hres
    exact used_branch_late h htyp hfmt hlate hready
  | false => exact used_branch_now h hexu htyp hfmt hlate

theorem usedOperands (hexu : ExuOk r) (hfire : exuInFire r i = true) :
    UsedOperands r.exu (exuIn r i) S := by
  have hd : Decoded (exuIn r i).dinst := ⟨j, h.bits⟩
  have hres : EXU.exuResultValid r.exu (exuIn r i) = true :=
    EXU.Occupied.exuResultValid_of_inFire (i := exuIn r i) hexu hd hfire
  have hbits : (exuIn r i).dinst = IDU.outBits j := h.bits
  refine ⟨?_, ?_, ?_⟩
  · intro harith hfast
    have huse := used_fast h hres harith hfast
    rw [hbits]
    exact huse
  · intro hbr
    have huse := used_branch h hexu hres hbr
    have hcode : (exuIn r i).dinst.code = IDU.inst j := by
      rw [hbits]
      rfl
    rw [hcode]
    exact huse
  · intro hst
    have huse := used_store h hst
    have hcode : (exuIn r i).dinst.code = IDU.inst j := by
      rw [hbits]
      rfl
    rw [hcode]
    exact huse

end Use

/-! ## The assertions on the fast tokens -/

theorem fill_ne_zero (b : Bool) : (fill 8 b != 0#8) = b := by
  cases b <;> rfl

/-- Loops and address instructions do not bypass their first operand. -/
theorem bypasses_of_adjacent1 (h : (IDU.byPass1 j).adjacentFastSelect = true) :
    IDU.isListReverseLoopEncoding (IDU.inst j) = false ∧
      IDU.needReg1AddImm (IDU.inst j) = false := by
  rcases IDU.conflict_iff.mp (IDU.exuConflict_of_select (Or.inr h)) with ⟨hrs, h0, _⟩
  cases hc : (IDU.isListReverseLoopEncoding (IDU.inst j) || IDU.needReg1AddImm (IDU.inst j)) with
  | false => simpa using hc
  | true =>
    simp only [hc, if_true] at hrs
    exact absurd hrs.symm h0

theorem previousIsFast_of_issued (h : Issued r S j)
    (ha : ((IDU.byPass1 j).adjacentFastSelect || (IDU.byPass2 j).adjacentFastSelect) = true) :
    EXU.previousIsFast (exuIn r i) = true := by
  have hlsu : r.lsuPipe.valid = true ∧ r.lsuPipe.bits.exuWriteBack.fastResult.valid = true := by
    rcases (Bool.or_eq_true _ _).mp ha with ha | ha
    · have hby := bypasses_of_adjacent1 ha
      have hadj := (h.rs1 hby.1 hby.2).adjacent ha
      exact ⟨(lsuWrites_iff.mp hadj.1).2.1, hadj.2⟩
    · have hadj := h.rs2.adjacent ha
      exact ⟨(lsuWrites_iff.mp hadj.1).2.1, hadj.2⟩
  simp [EXU.previousIsFast, exuIn, ExtractFastFwdInfoFromLSU, hlsu]

/-- Whoever holds a fast token is of its class and finds a fast result in LSU. -/
theorem fastTokenAsserts_of_issued (h : Issued r S j) :
    EXU.fastTokenAsserts (exuIn r i) = true := by
  have hbits : (exuIn r i).dinst = IDU.outBits j := h.bits
  have hgroups : EXU.fastAluRs1Groups (exuIn r i) = fill 8 (IDU.fastAluRs1Token j) ∧
      EXU.fastAluRs2Groups (exuIn r i) = fill 8 (IDU.fastAluRs2Token j) ∧
      EXU.fastBranchRs1Groups (exuIn r i) = fill 8 (IDU.fastBranchRs1Token j) ∧
      EXU.fastBranchRs2Groups (exuIn r i) = fill 8 (IDU.fastBranchRs2Token j) ∧
      EXU.fastStoreRs2Groups (exuIn r i) = fill 8 (IDU.fastStoreRs2Token j) := by
    simp only [EXU.fastAluRs1Groups, EXU.fastAluRs2Groups, EXU.fastBranchRs1Groups,
      EXU.fastBranchRs2Groups, EXU.fastStoreRs2Groups, hbits, IDU.outBits, IDU.info,
      EXU.decode_encodeToken, and_self]
  have hfast : IDU.isFastIntegerArithmetic (IDU.inst j) = true →
      EXU.resultIsFast (exuIn r i).dinst = true ∧ EXU.isTypArithmetic (exuIn r i).dinst = true := by
    intro hf
    rw [hbits]
    refine ⟨by simp [EXU.resultIsFast, IDU.outBits, IDU.info, IDU.resultKind_of_fast hf], ?_⟩
    simp only [IDU.isFastIntegerArithmetic, Bool.and_eq_true] at hf
    exact hf.1
  have hprev := previousIsFast_of_issued (i := i) h
  have hbranch : EXU.isTypBranch (exuIn r i).dinst = IDU.isTyp (IDU.inst j) .branch := by
    rw [hbits]
    rfl
  have hstore : EXU.isTypStore (exuIn r i).dinst = IDU.isTyp (IDU.inst j) .store := by
    rw [hbits]
    rfl
  simp only [EXU.fastTokenAsserts, hgroups, fill_ne_zero, hbranch, hstore, IDU.fastAluRs1Token,
    IDU.fastAluRs2Token, IDU.fastBranchRs1Token, IDU.fastBranchRs2Token, IDU.fastStoreRs2Token]
  cases ha : ((IDU.byPass1 j).adjacentFastSelect || (IDU.byPass2 j).adjacentFastSelect) with
  | false =>
    simp only [Bool.or_eq_false_iff] at ha
    simp [ha]
  | true =>
    rw [hprev ha]
    cases hf : IDU.isFastIntegerArithmetic (IDU.inst j) with
    | true =>
      simp only [hfast hf]
      cases IDU.isTyp (IDU.inst j) .branch <;> cases IDU.isTyp (IDU.inst j) .store <;> simp
    | false =>
      cases IDU.isTyp (IDU.inst j) .branch <;> cases IDU.isTyp (IDU.inst j) .store <;> simp

end CPUCore
end Core
end Jyd
