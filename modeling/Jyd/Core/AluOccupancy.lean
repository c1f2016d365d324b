import Jyd.Core.Issue
import Jyd.Core.Redirect

/-!
# AluOccupancy — the multi-cycle units work for the instruction in EXU

Multiplier, divider and B unit start with the operands of the instruction that EXU
holds and are idle again when it has left, so they never work on old operands.
-/

namespace Jyd
namespace Core
namespace EXU

open Hdl

variable {r : Regs} {i : In} {valid : Bool} {d : DecodedInst}

/-- The instructions that use the special execution cluster. -/
def usesAlu (d : DecodedInst) : Bool :=
  isTypArithmetic d && (resultIsLong d || (resultIsAccelerator d && simpleAccelerator d))

def isMulOp (d : DecodedInst) : Bool := !isFmtI d && func7t d == 1#7 && !(func3t d).getLsbD 2
def isDivOp (d : DecodedInst) : Bool := !isFmtI d && func7t d == 1#7 && (func3t d).getLsbD 2

structure UnitsIdle (r : Regs) : Prop where
  bExtension : r.alu.bExtension.state = .idle
  multiplier : r.alu.multiplier.state = .idle
  divider : r.alu.divider.state = .idle

/-- A unit that is not idle works for `d`, which is in EXU when `valid`. -/
structure UnitsOccupied (r : Regs) (valid : Bool) (d : DecodedInst) : Prop where
  bExtension : r.alu.bExtension.state ≠ .idle →
    valid = true ∧ usesAlu d = true ∧ d.info.bExtValid = true
  multiplier : r.alu.multiplier.state ≠ .idle →
    valid = true ∧ usesAlu d = true ∧ isMulOp d = true
  divider : r.alu.divider.state ≠ .idle → valid = true ∧ usesAlu d = true ∧ isDivOp d = true

theorem UnitsIdle.occupied (h : UnitsIdle r) : UnitsOccupied r valid d :=
  ⟨fun hb => absurd h.bExtension hb, fun hb => absurd h.multiplier hb,
    fun hb => absurd h.divider hb⟩

theorem aluInValid_eq : aluInValid i = (i.valid && usesAlu i.dinst) := by
  simp only [aluInValid, usesAlu, Bool.and_assoc]

/-! ## The units across a clock edge -/

theorem bExtension_stays_idle {b : BExtensionUnit.Regs} {k : BExtensionInput} {outReady : Bool}
    (h : b.state = .idle) : (BExtensionUnit.next b false k outReady).state = .idle := by
  simp [BExtensionUnit.next, h]

theorem multiplier_stays_idle {m : Multiplier.Regs} {k : MultiplierInput} {outReady : Bool}
    (h : m.state = .idle) : (Multiplier.next m k false outReady).state = .idle := by
  simp [Multiplier.next, Multiplier.clockPipes, h]

theorem divider_stays_idle {v : Divider.Regs} {k : DividerInput} {outReady : Bool}
    (h : v.state = .idle) : (Divider.next v k false outReady).state = .idle := by
  simp [Divider.next, h]

theorem bExtension_drains {b : BExtensionUnit.Regs} {k : BExtensionInput} {start : Bool}
    (h : BExtensionUnit.outValid b = true) :
    (BExtensionUnit.next b start k true).state = .idle := by
  have hs : b.state = .done := by simpa [BExtensionUnit.outValid] using h
  simp [BExtensionUnit.next, hs]

theorem multiplier_drains {m : Multiplier.Regs} {k : MultiplierInput} {start : Bool}
    (h : Multiplier.outValid m = true) : (Multiplier.next m k start true).state = .idle := by
  simp only [Multiplier.outValid, Bool.or_eq_true, Bool.and_eq_true, beq_iff_eq] at h
  rcases h with hs | ⟨hs, hv⟩
  · simp [Multiplier.next, hs]
  · simp [Multiplier.next, hs, hv]

theorem divider_drains {v : Divider.Regs} {k : DividerInput} {start : Bool}
    (h : Divider.outValid v = true) : (Divider.next v k start true).state = .idle := by
  have hs : v.state = .done := by simpa [Divider.outValid] using h
  simp [Divider.next, hs]

/-! ## Completion -/

theorem not_accelerator_of_usesAlu (hd : Decoded i.dinst) (h : usesAlu i.dinst = true) :
    isNumericDfa i.dinst = false ∧ isListReverse i.dinst = false ∧ isXmsum i.dinst = false ∧
      resultIsFast i.dinst = false := by
  rcases hd with ⟨j, hj⟩
  simp only [usesAlu, Bool.and_eq_true, Bool.or_eq_true] at h
  rcases h with ⟨harith, hlong | ⟨hacc, hsimple⟩⟩
  · have hkind : IDU.resultKind (IDU.inst j) = .longArithmetic := by
      rw [hj] at hlong
      simpa [resultIsLong, IDU.outBits, IDU.info] using hlong
    have hno : IDU.isAccelerator (IDU.inst j) = false := by
      refine Bool.eq_false_iff.mpr fun ha => ?_
      have htyp : (IDU.metaInfo (IDU.inst j)).typ = .arithmetic := by
        rw [hj] at harith
        simpa [isTypArithmetic, IDU.outBits, IDU.info] using harith
      simp [IDU.resultKind, IDU.isTyp, htyp, ha] at hkind
    rcases not_accelerator_of_code hj hno with ⟨hn, hl, hx⟩
    refine ⟨hn, hl, hx, ?_⟩
    rw [hj]
    simp [resultIsFast, IDU.outBits, IDU.info, hkind]
  · have hop : IDU.opcode (IDU.inst j) = 0b0001011#7 ∧
        (IDU.func3 (IDU.inst j) = 0#3 ∨ IDU.func3 (IDU.inst j) = 5#3) := by
      rw [hj] at hsimple
      simp only [simpleAccelerator, IDU.outBits, IDU.info, IDU.isCrcU8Custom,
        IDU.isBitExtractMulCustom, IDU.isCustom0, Bool.or_eq_true, Bool.and_eq_true,
        beq_iff_eq] at hsimple
      rcases hsimple with hs | hs
      · exact ⟨hs.2, Or.inl hs.1.2⟩
      · exact ⟨hs.2, Or.inr hs.1.2⟩
    have hkind : i.dinst.info.resultKind = .accelerator := by
      simpa [resultIsAccelerator] using hacc
    refine ⟨?_, ?_, ?_, by simp [resultIsFast, hkind]⟩ <;> rw [hj]
    · simp [isNumericDfa, IDU.outBits, IDU.info, IDU.isNumericDfaCustom, hop.1]
    · rcases hop.2 with h3 | h3 <;>
        simp [isListReverse, IDU.outBits, IDU.info, IDU.isListReverseCustom,
          IDU.isListReverseEncoding, h3]
    · rcases hop.2 with h3 | h3 <;>
        simp [isXmsum, IDU.outBits, IDU.info, IDU.isMatrixReduceCustom, IDU.isCustom0, h3]

theorem not_mExt_of_bExtValid (hd : Decoded d) (h : d.info.bExtValid = true) :
    (!isFmtI d && func7t d == 1#7) = false := by
  rcases hd with ⟨j, rfl⟩
  simp only [IDU.outBits, IDU.info, Bool.and_eq_true, Bool.not_eq_true'] at h
  exact h.1.2

theorem aluOutValid_of_inFire (hd : Decoded i.dinst) (hocc : Occupied r i.valid i.dinst)
    (hu : usesAlu i.dinst = true) (hfire : inFire r i = true) : aluOutValid r i = true := by
  rcases not_accelerator_of_usesAlu hd hu with ⟨hn, hl, hx, hfast⟩
  have harith : isTypArithmetic i.dinst = true := by
    simp only [usesAlu, Bool.and_eq_true] at hu
    exact hu.1
  have hstep : isNumericDfaStep i.dinst = false := by
    rw [isNumericDfaStep, hn, Bool.false_and]
  have hres : exuResultValid r i = true := hocc.exuResultValid_of_inFire hd hfire
  simp [exuResultValid, hstep, hl, hx, harith, hn, hfast] at hres
  exact hres.1.2

/-! ## The invariant -/

theorem UnitsOccupied.idle_of_unused (h : UnitsOccupied r valid d)
    (hu : (valid && usesAlu d) = false) : UnitsIdle r := by
  refine ⟨?_, ?_, ?_⟩ <;> by_contra hs
  · have := h.bExtension hs
    simp [this.1, this.2.1] at hu
  · have := h.multiplier hs
    simp [this.1, this.2.1] at hu
  · have := h.divider hs
    simp [this.1, this.2.1] at hu

theorem UnitsIdle.next_of_unused (h : UnitsIdle r) (hu : aluInValid i = false) :
    UnitsIdle (next r i) := by
  refine ⟨?_, ?_, ?_⟩
  · show (BExtensionUnit.next _ (aluInValid i && _) _ _).state = _
    rw [hu]
    exact bExtension_stays_idle h.bExtension
  · show (Multiplier.next _ _ (aluInValid i && _) _).state = _
    rw [hu]
    exact multiplier_stays_idle h.multiplier
  · show (Divider.next _ _ (aluInValid i && _) _).state = _
    rw [hu]
    exact divider_stays_idle h.divider

/-- The unit the instruction selects has delivered when the cluster has. -/
theorem outValid_of_aluOutValid (hd : Decoded i.dinst) (h : aluOutValid r i = true) :
    (i.dinst.info.bExtValid = true → BExtensionUnit.outValid r.alu.bExtension = true) ∧
      (isMulOp i.dinst = true → Multiplier.outValid r.alu.multiplier = true) ∧
      (isDivOp i.dinst = true → Divider.outValid r.alu.divider = true) := by
  have hmux : (i.dinst.info.bExtValid && BExtensionUnit.outValid r.alu.bExtension ||
      isMulOp i.dinst && Multiplier.outValid r.alu.multiplier ||
      isDivOp i.dinst && Divider.outValid r.alu.divider ||
      !i.dinst.info.bExtValid && !(!isFmtI i.dinst && func7t i.dinst == 1#7) && aluInValid i)
        = true := by
    simpa [aluOutValid, SpecialExecutionCluster.outValid, mux1HBool, specialIn, isMulOp, isDivOp,
      SpecialExecutionCluster.isMulOp, SpecialExecutionCluster.isDivOp,
      SpecialExecutionCluster.isMExt, or_assoc] using h
  have hex := not_mExt_of_bExtValid hd
  simp only [isMulOp, isDivOp] at hmux ⊢
  grind

theorem UnitsOccupied.idle_next_of_inFire (h : UnitsOccupied r i.valid i.dinst)
    (hocc : Occupied r i.valid i.dinst) (hd : Decoded i.dinst) (hout : i.outReady = true)
    (hfire : inFire r i = true) : UnitsIdle (next r i) := by
  cases hu : i.valid && usesAlu i.dinst with
  | false => exact (h.idle_of_unused hu).next_of_unused (aluInValid_eq.trans hu)
  | true =>
    have hov := aluOutValid_of_inFire hd hocc (Bool.and_eq_true _ _ ▸ hu).2 hfire
    rcases outValid_of_aluOutValid hd hov with ⟨hb, hm, hv⟩
    refine ⟨?_, ?_, ?_⟩
    · show (BExtensionUnit.next _ (aluInValid i && i.dinst.info.bExtValid) _ i.outReady).state = _
      rw [hout]
      cases hs : i.dinst.info.bExtValid with
      | true => exact bExtension_drains (hb hs)
      | false =>
        rw [Bool.and_false]
        exact bExtension_stays_idle (by_contra fun hn => by simp [h.bExtension hn] at hs)
    · show (Multiplier.next _ _ (aluInValid i && isMulOp i.dinst) i.outReady).state = _
      rw [hout]
      cases hs : isMulOp i.dinst with
      | true => exact multiplier_drains (hm hs)
      | false =>
        rw [Bool.and_false]
        exact multiplier_stays_idle (by_contra fun hn => by simp [h.multiplier hn] at hs)
    · show (Divider.next _ _ (aluInValid i && isDivOp i.dinst) i.outReady).state = _
      rw [hout]
      cases hs : isDivOp i.dinst with
      | true => exact divider_drains (hv hs)
      | false =>
        rw [Bool.and_false]
        exact divider_stays_idle (by_contra fun hn => by simp [h.divider hn] at hs)

theorem UnitsOccupied.stay (h : UnitsOccupied r i.valid i.dinst) :
    UnitsOccupied (next r i) i.valid i.dinst := by
  have hstart {sel : Bool} (hs : (aluInValid i && sel) = true) :
      i.valid = true ∧ usesAlu i.dinst = true ∧ sel = true := by
    simpa [aluInValid_eq, and_assoc] using hs
  -- a unit leaves idle only when it is started
  refine ⟨fun hn => ?_, fun hn => ?_, fun hn => ?_⟩
  · by_cases hidle : r.alu.bExtension.state = .idle
    · refine hstart (Bool.eq_true_of_not_eq_false fun hs => hn ?_)
      show (BExtensionUnit.next _ (aluInValid i && i.dinst.info.bExtValid) _ _).state = _
      rw [hs]
      exact bExtension_stays_idle hidle
    · exact h.bExtension hidle
  · by_cases hidle : r.alu.multiplier.state = .idle
    · refine hstart (Bool.eq_true_of_not_eq_false fun hs => hn ?_)
      show (Multiplier.next _ _ (aluInValid i && isMulOp i.dinst) _).state = _
      rw [hs]
      exact multiplier_stays_idle hidle
    · exact h.multiplier hidle
  · by_cases hidle : r.alu.divider.state = .idle
    · refine hstart (Bool.eq_true_of_not_eq_false fun hs => hn ?_)
      show (Divider.next _ _ (aluInValid i && isDivOp i.dinst) _).state = _
      rw [hs]
      exact divider_stays_idle hidle
    · exact h.divider hidle

end EXU

namespace CPUCore

variable {r : Regs} {i : In}

/-- The special units against the instruction in the EXU latch. -/
def UnitsOk (r : Regs) : Prop := EXU.UnitsOccupied r.exu (exuInValid r) r.exuPipe.bits

theorem unitsIdle_next (h : UnitsOk r) (hexu : ExuOk r)
    (hd : exuInValid r = true → Decoded r.exuPipe.bits) (hfire : exuInFire r i = true) :
    EXU.UnitsIdle (next r i).exu :=
  EXU.UnitsOccupied.idle_next_of_inFire (i := exuIn r i) h hexu
    (hd (exuInValid_of_inFire hfire)) (exuOutReady_eq r) hfire

theorem unitsOk_next (h : UnitsOk r) (hexu : ExuOk r)
    (hd : exuInValid r = true → Decoded r.exuPipe.bits) : UnitsOk (next r i) := by
  cases hfire : exuInFire r i with
  | true => exact (unitsIdle_next h hexu hd hfire).occupied
  | false =>
    cases hv : exuInValid r with
    | false =>
      have hinv : (exuInValid r && EXU.usesAlu r.exuPipe.bits) = false := by simp [hv]
      have hoff : EXU.aluInValid (exuIn r i) = false := EXU.aluInValid_eq.trans hinv
      have hidle := h.idle_of_unused hinv
      exact (EXU.UnitsIdle.next_of_unused hidle hoff).occupied
    | true =>
      rcases exu_stays hexu hv hfire with ⟨hv', hbits⟩
      rw [UnitsOk, hv', hbits]
      have hstay := EXU.UnitsOccupied.stay (i := exuIn r i) h
      rwa [show (exuIn r i).valid = true from hv] at hstay

end CPUCore
end Core
end Jyd
