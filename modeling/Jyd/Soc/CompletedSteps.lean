import Jyd.Core.BranchResolution
import Jyd.Core.Residence
import Jyd.Soc.RamAccess

/-!
# CompletedSteps — completed instructions as steps of a sequential machine

The registers of that machine are those left once LSU and WBU have drained, and its program
counter is the address that EXU takes next.  An arithmetic instruction computes with the
registers at its issue, which are those at its completion: nothing else completes while it is
in EXU, however long its unit takes.
-/

namespace Jyd
namespace Soc
namespace JYDSoC

open Hdl Jyd.Core Isa TrimmedPC

section Run

variable {c : Config} {R : Run (machine c)} {s t : ℕ}

/-- EXU takes its next instruction from address `a`. -/
def NextIs (R : Run (machine c)) (t : ℕ) (a : Word) : Prop :=
  ∀ u, t < u → (∀ v, t < v → v < u → completesAt R v = false) →
    CPUCore.exuInValid (R.state u).core = true → (R.state u).core.exuPipe.bits.pc = a

/-- Registers and continuation stand still while nothing completes. -/
theorem still_of_waits (hle : s ≤ t) (hwaits : ∀ v, s ≤ v → v < t → completesAt R v = false) :
    seqRegs R t = seqRegs R s ∧ expectedAt R t = expectedAt R s := by
  induction t, hle using Nat.le_induction with
  | base => exact ⟨rfl, rfl⟩
  | succ t hle ih =>
    have hwait : CPUCore.exuInFire (R.state t).core (coreIn c (R.input t) (R.state t)) = false :=
      hwaits t hle (Nat.lt_succ_self t)
    rcases ih fun v hv hlt => hwaits v hv (Nat.lt_succ_of_lt hlt) with ⟨hregs, hpc⟩
    refine ⟨?_, ?_⟩
    · rw [← hregs]
      funext x
      simp [seqRegs, writeBack, CPUCore.completesInto, hwait]
    · rw [← hpc]
      simp [expectedAt, Run.observe, CPUCore.nextExpected, hwait]

/-- The next instruction is the one at the continuation of the completed one. -/
theorem nextIs_of_completes (hfire : completesAt R t = true) :
    NextIs R t (EXU.continuation (R.state t).core.exuPipe.bits
      (EXU.takeBranch (R.state t).core.exu
        (CPUCore.exuIn (R.state t).core (coreIn c (R.input t) (R.state t))))
      (R.state t).core.exu.listReverse.listReverseLoopTaken
      (ControlStatusRegisterFile.mtvec (R.state t).core.exu.csr.csrs)
      (ControlStatusRegisterFile.mepc (R.state t).core.exu.csr.csrs)) := by
  have hf := frontInv R t
  have hfire' : CPUCore.exuInFire (R.state t).core (coreIn c (R.input t) (R.state t)) = true := hfire
  have hd := hf.front.exu (CPUCore.exuInValid_iff.mp (CPUCore.exuInValid_of_inFire hfire')).1
  intro u hlt hwaits hv
  have hnext : expectedAt R (t + 1) = trim (EXU.nxtPC (R.state t).core.exu
      (CPUCore.exuIn (R.state t).core (coreIn c (R.input t) (R.state t)))) := by
    simp [expectedAt, Run.observe, CPUCore.nextExpected, hfire']
  rw [CPUCore.pc_of_valid (frontInv R u).front (frontInv R u).phase hv,
    (still_of_waits hlt hwaits).2, hnext, EXU.expand_trim_nxtPC hd.pc]
  exact EXU.nxtPC_eq_continuation hf.exu hd.decoded hfire'

/-- A completion changes the destination register and no other. -/
theorem drainedRegs_of_completes (hfire : completesAt R t = true) (x : BitVec 5) :
    drainedRegs c (R.input (t + 1)) (R.state (t + 1)) x =
      if IDU.rdWrEn (codeAt R t) ∧ x = IDU.rd (codeAt R t) ∧ x ≠ 0#5 then
        resultValue c (R.input t) (R.state t)
      else drainedRegs c (R.input t) (R.state t) x := by
  have hfire' : CPUCore.exuInFire (R.state t).core (coreIn c (R.input t) (R.state t)) = true := hfire
  rcases decoded_of_completes (frontInv R t) hfire with ⟨j, hj⟩
  have hinto : CPUCore.completesInto (R.state t).core (coreIn c (R.input t) (R.state t)) x = true ↔
      IDU.rdWrEn (codeAt R t) = true ∧ x = IDU.rd (codeAt R t) ∧ x ≠ 0#5 := by
    rw [CPUCore.completesInto, hfire', codeAt, hj]
    simp only [Bool.true_and, Bool.and_eq_true, beq_iff_eq, bne_iff_ne, and_assoc]
    exact and_congr_right fun _ => and_congr_left fun _ => eq_comm
  rw [R.step t]
  simp only [machine, drainedRegs_next (frontInv R t), writeBack, hinto]

end Run

variable {rom : Rom} {R : Run (machine (jydSoC rom))} {t : ℕ}

theorem not_loop_of_fields {inst : Word} {e : Encoding} (h : IDU.Fields inst e) :
    IDU.isListReverseLoopEncoding inst = false := by
  refine Bool.eq_false_iff.mpr fun hloop => ?_
  simp only [IDU.isListReverseLoopEncoding, Bool.and_eq_true, beq_iff_eq] at hloop
  have hacc := h.not_accelerator
  simp [IDU.isAccelerator, IDU.isListReverseCustom, IDU.isListReverseEncoding, hloop] at hacc

theorem typ_of_fields {inst : Word} {e : Encoding} (h : IDU.Fields inst e) :
    (IDU.metaInfo inst).typ = .arithmetic := by
  simpa [IDU.isTyp] using h.typ

section Completed

variable (hdisc : DisciplinedBefore (c := jydSoC rom) window64KB R t)
  (hfire : completesAt R t = true)

include hdisc hfire

/-- Arithmetic on the sequential registers, however many cycles it took. -/
theorem resultValue_of_matches {op : ArithOp} (hmatches : op.encoding.Matches (codeAt R t)) :
    resultValue (jydSoC rom) (R.input t) (R.state t) =
      op.result (seqRegs R t (IDU.rs1 (codeAt R t)))
        (op.operand2 (codeAt R t) (seqRegs R t ((codeAt R t).extractLsb' 20 5))) := by
  rcases CPUCore.exists_resides (R := coreRun R) (CPUCore.exuInValid_of_inFire hfire) with ⟨s, hres⟩
  have hinst : IDU.inst (CPUCore.issuing (coreRun R) s) = codeAt R t :=
    (congrArg DecodedInst.code hres.bits).symm
  rcases (CPUCore.executes_of_matches hres.issues (hinst.symm ▸ hmatches)).2 with
    ⟨u, hexec, hresult⟩
  obtain rfl : u = t := hres.eq_of_executes hexec hfire
  have hfields := IDU.fields_of_matches hmatches
  have htyp := typ_of_fields hfields
  have hvalue : resultValue (jydSoC rom) (R.input u) (R.state u) =
      CPUCore.resultAt (coreRun R) u := by
    have hload : EXU.isTypLoad (R.state u).core.exuPipe.bits = false := by
      rw [EXU.isTypLoad, (decoded_of_completes (frontInv R u) hfire).metaInfo_eq]
      simp [show (IDU.metaInfo (R.state u).core.exuPipe.bits.code).typ = _ from htyp]
    simp only [resultValue, hload, Bool.false_eq_true, if_false]
    rfl
  -- the operands were taken at issue, and nothing has completed since
  have hregs := (still_of_waits hres.lt hres.waits).1
  have hops := operands_sequential
    (fun k hk => hdisc k (Nat.lt_of_lt_of_le hk hres.lt)) hres.issues
  rw [hinst, ← hregs] at hops
  rw [hinst] at hresult
  have hrs1 := hops.1 (not_loop_of_fields hfields)
    (by simp [IDU.needReg1AddImm, IDU.isTyp, htyp])
  rw [hvalue, hresult, ArithOp.operand2, ArithOp.operand2]
  refine congrArg₂ op.result hrs1 ?_
  split
  · rfl
  · rename_i himm
    -- the register form has its second operand in the field
    have hmeta : IDU.metaInfo (codeAt R u) = ⟨.reg, .arithmetic⟩ := by
      rw [IDU.metaInfo_of_opcode _ hmatches.opcode, Encoding.opcode, if_neg himm]
      rfl
    have hrs2 : IDU.rs2 (codeAt R u) = (codeAt R u).extractLsb' 20 5 := by
      simp [IDU.rs2, IDU.noNeedRs2, IDU.isFmt, hmeta]
    rw [← hrs2]
    exact hops.2

theorem takeBranch_of_encodes {op : BranchOp} (henc : op.Encodes (codeAt R t)) :
    EXU.takeBranch (R.state t).core.exu
        (CPUCore.exuIn (R.state t).core (coreIn (jydSoC rom) (R.input t) (R.state t))) =
      op.taken (seqRegs R t (IDU.rs1 (codeAt R t)))
        (seqRegs R t ((codeAt R t).extractLsb' 20 5)) := by
  rcases issuedOk hdisc (CPUCore.exuInValid_of_inFire hfire) with ⟨j, hj⟩
  have hused := CPUCore.usedOperands
    (CPUCore.delivered_of_issued (drained R t) (regsOk hdisc) hj) (frontInv R t).exu hfire
  have hdinst : (CPUCore.exuIn (R.state t).core
      (coreIn (jydSoC rom) (R.input t) (R.state t))).dinst = IDU.outBits j := hj.bits
  rw [show codeAt R t = IDU.inst j from congrArg DecodedInst.code hj.bits] at henc ⊢
  have hmeta := EXU.metaInfo_of_branch henc
  rw [hused.branch (by rw [hdinst]; simp [EXU.isTypBranch, IDU.outBits, IDU.info, hmeta]), hdinst,
    show (IDU.outBits j).code = IDU.inst j from rfl,
    show IDU.rs2 (IDU.inst j) = (IDU.inst j).extractLsb' 20 5 by
      simp [IDU.rs2, IDU.noNeedRs2, IDU.isFmt, hmeta]]
  exact EXU.branchCondition_eq henc _ _

end Completed

/-- In every run of the SoC an arithmetic instruction that completes, in one cycle or after
many, writes the result that RISC-V defines on the registers of its predecessors, leaves all
other registers alone, and is followed by the instruction behind it. -/
theorem arithmetic_step (rom : Rom) (R : Run (machine (jydSoC rom))) (t : ℕ)
    (h : ∀ k < t, StoresInWindow (jydSoC rom) (R.input k) (R.state k))
    (hfire : completesAt R t = true) (op : ArithOp) (hop : op.encoding.Matches (codeAt R t)) :
    (∀ x, drainedRegs (jydSoC rom) (R.input (t + 1)) (R.state (t + 1)) x =
      if x = IDU.rd (codeAt R t) ∧ x ≠ 0#5 then
        op.result (drainedRegs (jydSoC rom) (R.input t) (R.state t) (IDU.rs1 (codeAt R t)))
          (op.operand2 (codeAt R t) (drainedRegs (jydSoC rom) (R.input t) (R.state t)
            ((codeAt R t).extractLsb' 20 5)))
      else drainedRegs (jydSoC rom) (R.input t) (R.state t) x) ∧
      NextIs R t (expand (trim (R.state t).core.exuPipe.bits.pc + 1)) := by
  have hfields := IDU.fields_of_matches hop
  have htyp := typ_of_fields hfields
  refine ⟨fun x => ?_, ?_⟩
  · have hwr : IDU.rdWrEn (codeAt R t) = true := by simp [IDU.rdWrEn, IDU.isTyp, htyp]
    rw [drainedRegs_of_completes hfire,
      resultValue_of_matches (disciplinedBefore_of_storesInWindow h) hfire hop, seqRegs_eq]
    simp only [hwr, true_and]
  · have hnext := nextIs_of_completes hfire
    rw [EXU.continuation] at hnext
    simpa only [← codeAt.eq_1, not_loop_of_fields hfields, htyp, Bool.false_eq_true, if_false]
      using hnext

/-- `addi x1, x0, 7; mul x2, x1, x1; bne x2, x1, -8`. -/
def squareLoop : List Word := [0x00700093#32, 0x02108133#32, 0xfe111ce3#32]

theorem arithmetic_step_mul :
    let c := jydSoC (romOf squareLoop)
    drainedRegs c ((run c).input 7) ((run c).state 7) 2#5 = 49#32 := by
  intro c
  have hstep := arithmetic_step _ (run c) 6 (by decide +kernel) (by decide +kernel) (.mul .mul)
    ⟨by decide +kernel, by decide +kernel, by decide +kernel, by decide +kernel⟩
  exact (hstep.1 2#5).trans (by decide +kernel)

/-- A branch decides on the registers of its predecessors and writes none. -/
theorem branch_step (rom : Rom) (R : Run (machine (jydSoC rom))) (t : ℕ)
    (h : ∀ k < t, StoresInWindow (jydSoC rom) (R.input k) (R.state k))
    (hfire : completesAt R t = true) (op : BranchOp) (hop : op.Encodes (codeAt R t)) :
    drainedRegs (jydSoC rom) (R.input (t + 1)) (R.state (t + 1)) =
        drainedRegs (jydSoC rom) (R.input t) (R.state t) ∧
      NextIs R t (if op.taken
          (drainedRegs (jydSoC rom) (R.input t) (R.state t) (IDU.rs1 (codeAt R t)))
          (drainedRegs (jydSoC rom) (R.input t) (R.state t) ((codeAt R t).extractLsb' 20 5)) then
        expand (trim ((R.state t).core.exuPipe.bits.pc + IDU.immB (codeAt R t)))
      else expand (trim (R.state t).core.exuPipe.bits.pc + 1)) := by
  have hmeta : IDU.metaInfo (codeAt R t) = ⟨.branch, .branch⟩ := IDU.metaInfo_of_opcode _ hop.opcode
  have hloop : IDU.isListReverseLoopEncoding (codeAt R t) = false :=
    IDU.not_loop_of_typ (by rw [hmeta]; decide)
  refine ⟨funext fun x => ?_, ?_⟩
  · rw [drainedRegs_of_completes hfire, if_neg]
    simp [IDU.rdWrEn, IDU.isTyp, hmeta]
  · have hnext := nextIs_of_completes hfire
    rw [takeBranch_of_encodes (disciplinedBefore_of_storesInWindow h) hfire hop, seqRegs_eq,
      EXU.continuation] at hnext
    simpa only [← codeAt.eq_1, hloop, IDU.imm, hmeta, Bool.false_eq_true, if_false] using hnext

theorem branch_step_bne :
    ((run (jydSoC (romOf squareLoop))).state 12).core.exuPipe.bits.pc = 0x80000000#32 := by
  have hstep := branch_step _ (run (jydSoC (romOf squareLoop))) 8 (by decide +kernel)
    (by decide +kernel) .bne ⟨by decide +kernel, by decide +kernel⟩
  have hwaits : ∀ v, 8 < v → v < 12 →
      completesAt (run (jydSoC (romOf squareLoop))) v = false := by
    intro v hlow hhigh
    interval_cases v <;> decide +kernel
  exact (hstep.2 12 (by decide) hwaits (by decide +kernel)).trans (by decide +kernel)

end JYDSoC
end Soc
end Jyd
