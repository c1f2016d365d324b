import Jyd.Core.CoreRun

/-!
# BranchResolution — three ways to resolve a branch

A conditional branch is resolved in EXU from its payload, in EXU from a captured load
that missed the cache, or one cycle later in LSU when an operand came through the
adjacent-fast selectors or from a cache hit.  Exactly one of the three reports it, and
the report agrees with the comparison of the register values.
-/

namespace Jyd
namespace Isa

open Hdl

inductive BranchOp
  | beq
  | bne
  | blt
  | bge
  | bltu
  | bgeu
  deriving DecidableEq, Repr

namespace BranchOp

def func3 : BranchOp → BitVec 3
  | beq => 0b000
  | bne => 0b001
  | blt => 0b100
  | bge => 0b101
  | bltu => 0b110
  | bgeu => 0b111

def taken (op : BranchOp) (a b : Word) : Bool :=
  match op with
  | beq => decide (a = b)
  | bne => decide (a ≠ b)
  | blt => decide (a.toInt < b.toInt)
  | bge => decide (b.toInt ≤ a.toInt)
  | bltu => decide (a.toNat < b.toNat)
  | bgeu => decide (b.toNat ≤ a.toNat)

structure Encodes (op : BranchOp) (inst : Word) : Prop where
  opcode : inst.extractLsb' 0 7 = 0b1100011#7
  func3 : inst.extractLsb' 12 3 = op.func3

end BranchOp

end Isa

namespace Core

open Hdl Isa

namespace EXU

variable {j : IDU.In} {op : BranchOp}

theorem metaInfo_of_branch (h : op.Encodes (IDU.inst j)) :
    IDU.metaInfo (IDU.inst j) = ⟨.branch, .branch⟩ := by
  rw [IDU.metaInfo_of_opcode (IDU.inst j) h.opcode]
  rfl

/-- The one-hot condition decodes the function field of the branch. -/
theorem branchCondition_eq (h : op.Encodes (IDU.inst j)) (a b : Word) :
    branchCondition (IDU.outBits j) (a == b) (a.slt b) (a.ult b) = op.taken a b := by
  have htyp : IDU.isTyp (IDU.inst j) .branch = true := by
    simp [IDU.isTyp, metaInfo_of_branch h]
  have hfunc3 : IDU.func3 (IDU.inst j) = op.func3 := h.func3
  cases op <;>
    simp [BranchOp.func3] at hfunc3 <;>
    simp [branchCondition, mux1HBool, IDU.outBits, IDU.info, htyp, hfunc3, BranchOp.taken,
      BitVec.slt, BitVec.ult]
  case beq => rfl
  case bne => rfl
  case bge =>
    rw [← decide_not, decide_eq_decide]
    omega
  case bgeu =>
    rw [← decide_not, decide_eq_decide]
    omega

end EXU

namespace CPUCore

/-! ## Paths -/

inductive ResolutionPath
  | immediate
  | captured
  | registered
  deriving DecidableEq, Repr

/-- The path reports the branch that leaves EXU in cycle `t`.  The registered path does so
from the LSU latch, one cycle later. -/
def reports (R : Run machine) (t : ℕ) : ResolutionPath → Bool
  | .immediate =>
    exuOutFire (R.state t) (R.input t) &&
      !EXU.registeredBranchResolve (exuIn (R.state t) (R.input t)) &&
      !EXU.hasLateLoadOperand (R.state t).exuPipe.bits
  | .captured =>
    exuOutFire (R.state t) (R.input t) &&
      !EXU.registeredBranchResolve (exuIn (R.state t) (R.input t)) &&
      EXU.hasLateLoadOperand (R.state t).exuPipe.bits && (R.state t).exu.capturedLateLoadValid
  | .registered =>
    lsuInFire (R.state (t + 1)) && (R.state (t + 1)).lsuPipe.bits.lateBranchResolve

/-- The path that the producers of the operands call for. -/
def resolutionPath (R : Run machine) (s : ℕ) : ResolutionPath :=
  let d := IDU.outBits (issuing R s)
  if d.info.adjacentFastBranch ||
      (EXU.hasLateLoadOperand d && (lateLoadLSU (R.state (s + 1))).dataValid) then .registered
  else if EXU.hasLateLoadOperand d then .captured
  else .immediate

/-- The branch goes another way than it was predicted to. -/
def mispredicted (R : Run machine) (s : ℕ) (op : BranchOp) : Bool :=
  op.taken (issueRegs R s ((IDU.inst (issuing R s)).extractLsb' 15 5))
      (issueRegs R s ((IDU.inst (issuing R s)).extractLsb' 20 5)) ^^
    (issuing R s).bits.pred.take

section Branch

variable {R : Run machine} {s : ℕ} (h : Issues R s) {op : BranchOp}
  (hop : op.Encodes (IDU.inst (issuing R s)))

include hop

theorem isTypBranch_of_encodes : EXU.isTypBranch (IDU.outBits (issuing R s)) = true := by
  simp [EXU.isTypBranch, IDU.outBits, IDU.info, EXU.metaInfo_of_branch hop]

theorem Holds.inFire_of_branch {t : ℕ} (ht : Holds R (IDU.outBits (issuing R s)) t) :
    exuInFire (R.state t) (R.input t) =
      EXU.exuResultValid (R.state t).exu (exuIn (R.state t) (R.input t)) := by
  have hbr := isTypBranch_of_encodes hop
  have hacc := EXU.not_accelerator (d := IDU.outBits (issuing R s)) ⟨_, rfl⟩
    (EXU.not_arithmetic_of_branch hbr)
  have hmem : EXU.needMemReq (IDU.outBits (issuing R s)) = false := by
    have htyp : (IDU.outBits (issuing R s)).info.typ = .branch := by
      simpa [EXU.isTypBranch] using hbr
    rw [EXU.needMemReq, EXU.isTypLoad, EXU.isTypStore, htyp]
    rfl
  exact ht.inFire_eq hacc hmem

include h

/-- A branch waits for late operands only, and decides on the register values at issue. -/
theorem executes_branch :
    Executes R (IDU.outBits (issuing R s)) (s + 1) (completion R s) ∧
      EXU.takeBranch (R.state (completion R s)).exu
          (exuIn (R.state (completion R s)) (R.input (completion R s))) =
        op.taken (issueRegs R s ((IDU.inst (issuing R s)).extractLsb' 15 5))
          (issueRegs R s ((IDU.inst (issuing R s)).extractLsb' 20 5)) := by
  have hbr := isTypBranch_of_encodes hop
  have hnow : EXU.hasLateLoadOperand (IDU.outBits (issuing R s)) = false →
      exuInFire (R.state (s + 1)) (R.input (s + 1)) = true := by
    intro hl
    have hin := h.holds.dinst
    rw [h.holds.inFire_of_branch hop,
      EXU.exuResultValid_of_branch ⟨_, hin⟩ (hin.symm ▸ hbr), hin, hl]
    rfl
  rcases h.executes hnow with ⟨hexec, hdelivered⟩
  refine ⟨hexec, ?_⟩
  have hin := (hexec.holds _ hexec.le le_rfl).dinst
  have hused := (usedOperands hdelivered (settled R _).exu hexec.completes).branch
    (hin.symm ▸ hbr)
  have hrs2 : IDU.rs2 (IDU.inst (issuing R s)) = (IDU.inst (issuing R s)).extractLsb' 20 5 := by
    simp [IDU.rs2, IDU.noNeedRs2, IDU.isFmt, EXU.metaInfo_of_branch hop]
  rw [hused, hin]
  have hcode : (IDU.outBits (issuing R s)).code = IDU.inst (issuing R s) := rfl
  rw [hcode, hrs2]
  exact EXU.branchCondition_eq hop _ _

omit hop in
/-- A late operand that is in LSU when the branch completes was there from the start. -/
theorem hit_at_completion :
    (EXU.hasLateLoadOperand (IDU.outBits (issuing R s)) &&
        (lateLoadLSU (R.state (completion R s))).dataValid) =
      (EXU.hasLateLoadOperand (IDU.outBits (issuing R s)) &&
        (lateLoadLSU (R.state (s + 1))).dataValid) := by
  cases hl : EXU.hasLateLoadOperand (IDU.outBits (issuing R s)) with
  | false => rfl
  | true =>
    cases hhit : (lateLoadLSU (R.state (s + 1))).dataValid with
    | true =>
      have hu : completion R s = s + 1 := by simp [completion, hhit]
      rw [hu, hhit]
    | false =>
      have hu : completion R s = s + 3 := by simp [completion, hl, hhit]
      have hempty := (late_miss hl h hhit).2.2.1
      simp [hu, lateLoadLSU, hempty]

theorem registered_eq :
    EXU.registeredBranchResolve (exuIn (R.state (completion R s)) (R.input (completion R s))) =
      decide (resolutionPath R s = .registered) := by
  have hexec := (executes_branch h hop).1
  have hin := (hexec.holds _ hexec.le le_rfl).dinst
  have hbr := isTypBranch_of_encodes hop
  have hlsu : (exuIn (R.state (completion R s)) (R.input (completion R s))).lateLoadLSU =
      lateLoadLSU (R.state (completion R s)) := rfl
  -- the registered comparison is chosen for a late operand that hit
  have hlate : EXU.lateEqualityBranchResolve
      (exuIn (R.state (completion R s)) (R.input (completion R s))) =
      (EXU.hasLateLoadOperand (IDU.outBits (issuing R s)) &&
        (lateLoadLSU (R.state (s + 1))).dataValid) := by
    rw [← hit_at_completion h]
    cases hl : EXU.hasLateLoadOperand (IDU.outBits (issuing R s)) with
    | false => simp [EXU.lateEqualityBranchResolve, hin, hl]
    | true =>
      have hbeq := EXU.beq_or_bne_of_late (i := exuIn (R.state (completion R s))
        (R.input (completion R s))) ⟨_, hin⟩ (hin.symm ▸ hbr) (hin.symm ▸ hl)
      rw [hin] at hbeq
      simp [EXU.lateEqualityBranchResolve, EXU.useRegisteredRawLoadEqual, hin, hl, hbr, hbeq, hlsu]
  rw [EXU.registeredBranchResolve, hlate, hin, resolutionPath]
  cases (IDU.outBits (issuing R s)).info.adjacentFastBranch <;>
    cases EXU.hasLateLoadOperand (IDU.outBits (issuing R s)) <;>
      cases (lateLoadLSU (R.state (s + 1))).dataValid <;> rfl

/-- The payload that LSU receives from the branch. -/
theorem lsu_after_branch :
    (R.state (completion R s + 1)).lsuPipe.valid = true ∧
      (R.state (completion R s + 1)).lsuPipe.bits.lateBranchResolve =
        decide (resolutionPath R s = .registered) ∧
      (R.state (completion R s + 1)).lsuPipe.bits.lateBranchMismatch = mispredicted R s op := by
  rcases executes_branch h hop with ⟨hexec, htake⟩
  have hlast := hexec.holds _ hexec.le le_rfl
  have hres : EXU.exuResultValid (R.state (completion R s)).exu
      (exuIn (R.state (completion R s)) (R.input (completion R s))) = true :=
    (hlast.inFire_of_branch hop).symm.trans hexec.completes
  rw [lsuPipe_succ]
  refine ⟨hexec.completes, ?_, ?_⟩
  · show (EXU.exuResultValid _ _ && EXU.registeredBranchResolve _) = _
    rw [hres, Bool.true_and, registered_eq h hop]
  · show (EXU.takeBranch _ _ ^^ _) = _
    rw [htake, hlast.dinst]
    rfl

/-! ## Reports -/

theorem reports_at_completion (p : ResolutionPath) :
    reports R (completion R s) p = decide (p = resolutionPath R s) := by
  have hexec := (executes_branch h hop).1
  have hlast := hexec.holds _ hexec.le le_rfl
  have hfire : exuOutFire (R.state (completion R s)) (R.input (completion R s)) = true :=
    (exuOutFire_eq (settled R _).exu).trans hexec.completes
  have hreg := registered_eq h hop
  cases p with
  | registered =>
    rcases lsu_after_branch h hop with ⟨hv, hlate, _⟩
    rw [reports, lsuInFire, hv, hlate]
    simp [lsuInReady, Pipe.allowIn, eq_comm]
  | immediate =>
    rw [reports, hfire, hreg, hlast.2, resolutionPath]
    cases (IDU.outBits (issuing R s)).info.adjacentFastBranch <;>
      cases EXU.hasLateLoadOperand (IDU.outBits (issuing R s)) <;>
        cases (lateLoadLSU (R.state (s + 1))).dataValid <;> rfl
  | captured =>
    -- the capture register is in use exactly after a miss
    have hcap : EXU.hasLateLoadOperand (IDU.outBits (issuing R s)) = true →
        (lateLoadLSU (R.state (s + 1))).dataValid = false →
        (R.state (completion R s)).exu.capturedLateLoadValid = true := by
      intro hl hmiss
      have hu : completion R s = s + 3 := by simp [completion, hl, hmiss]
      rw [hu]
      exact (late_miss hl h hmiss).2.1
    rw [reports, hfire, hreg, hlast.2, resolutionPath]
    cases hl : EXU.hasLateLoadOperand (IDU.outBits (issuing R s)) with
    | false => cases (IDU.outBits (issuing R s)).info.adjacentFastBranch <;> simp
    | true =>
      cases hhit : (lateLoadLSU (R.state (s + 1))).dataValid with
      | true => simp
      | false =>
        rw [hcap hl hhit]
        cases (IDU.outBits (issuing R s)).info.adjacentFastBranch <;> rfl

/-- A cycle in which the branch waits. -/
theorem quiet_before_completion {t : ℕ} (hle : s + 1 ≤ t) (hlt : t < completion R s) :
    (∀ p, reports R t p = false) ∧ immediateRedirectNow (R.state t) (R.input t) = false ∧
      lateRedirectDetected (R.state (t + 1)) = false := by
  have hexec := (executes_branch h hop).1
  have hwait := hexec.waits t hle hlt
  have hfire : exuOutFire (R.state t) (R.input t) = false :=
    (exuOutFire_eq (settled R t).exu).trans hwait
  -- nothing has left EXU, so LSU has nothing to report either
  have hempty := lsu_empty_of_wait hwait
  refine ⟨?_, no_redirect_of_no_fire (settled R t).exu hwait, ?_⟩
  · intro p
    cases p <;> simp [reports, hfire, lsuInFire, hempty]
  · simp [lateRedirectDetected, lsuInFire, hempty]

/-- The redirect of EXU in the cycle in which the branch completes. -/
theorem immediate_at_completion :
    immediateRedirectNow (R.state (completion R s)) (R.input (completion R s)) =
      (decide (resolutionPath R s ≠ .registered) && mispredicted R s op) := by
  rcases executes_branch h hop with ⟨hexec, htake⟩
  have hlast := hexec.holds _ hexec.le le_rfl
  have hin := hlast.dinst
  have hbr := isTypBranch_of_encodes hop
  have hd : Decoded (exuIn (R.state (completion R s)) (R.input (completion R s))).dinst :=
    ⟨_, hin⟩
  have hres : EXU.exuResultValid (R.state (completion R s)).exu
      (exuIn (R.state (completion R s)) (R.input (completion R s))) = true :=
    (hlast.inFire_of_branch hop).symm.trans hexec.completes
  have hloop : EXU.listReverseLoopBranch (R.state (completion R s)).exu
      (exuIn (R.state (completion R s)) (R.input (completion R s))) = false := by
    rw [EXU.listReverseLoopBranch, EXU.not_listReverseLoop hd
      (EXU.not_arithmetic_of_branch (hin.symm ▸ hbr)), Bool.false_and]
  have htyp : (exuIn (R.state (completion R s)) (R.input (completion R s))).dinst.info.typ =
      .branch := by
    rw [hin]
    simpa [EXU.isTypBranch] using hbr
  -- a branch has no other way to be predicted wrong
  have hwrong := EXU.not_notBranchPredWrong hd (by simp [EXU.isTypJAL, htyp])
    (by simp [EXU.isTypJALR, htyp]) (by simp [EXU.isTypSys, htyp])
  have hvalid : exuOutValid (R.state (completion R s)) (R.input (completion R s)) = true :=
    (exuOutValid_eq (settled R _).exu).trans hexec.completes
  have hfmt : EXU.isFmtB (exuIn (R.state (completion R s)) (R.input (completion R s))).dinst =
      true := (EXU.isFmtB_eq hd).trans (hin.symm ▸ hbr)
  have hpred : (exuIn (R.state (completion R s)) (R.input (completion R s))).dinst.predTake =
      (issuing R s).bits.pred.take := by
    rw [hin]
    rfl
  rw [immediateRedirectNow, hvalid, EXU.immediatePredWrong, hres, hloop, hwrong, hfmt, hpred,
    registered_eq h hop]
  by_cases hpath : resolutionPath R s = .registered
  · simp [hpath]
  · have hreg : EXU.registeredBranchResolve
        (exuIn (R.state (completion R s)) (R.input (completion R s))) = false :=
      (registered_eq h hop).trans (decide_eq_false hpath)
    have himm := EXU.immediateTakeBranch_eq
      (i := exuIn (R.state (completion R s)) (R.input (completion R s)))
      (settled R (completion R s)).exu hd (hin.symm ▸ hbr) hres hreg
    rw [himm, htake]
    simp [hpath, mispredicted]

/-- The redirect that LSU detects one cycle later. -/
theorem late_after_completion :
    lateRedirectDetected (R.state (completion R s + 1)) =
      (decide (resolutionPath R s = .registered) && mispredicted R s op) := by
  rcases lsu_after_branch h hop with ⟨hv, hlate, hmismatch⟩
  simp [lateRedirectDetected, lsuInFire, hv, hlate, hmismatch, lsuInReady, Pipe.allowIn]

end Branch

/-- Whatever the memories answer, one of the three paths reports a conditional branch, once
and when it completes: the registered one for an adjacent or hit operand, the captured one
for a missed load, the immediate one otherwise.  EXU or LSU then asks for a redirect exactly
when the comparison of the two register values differs from the predicted direction. -/
theorem branches_resolve_once (R : Run machine) (s : ℕ) (h : Issues R s) (op : BranchOp)
    (hop : op.Encodes (IDU.inst (issuing R s))) :
    Executes R (IDU.outBits (issuing R s)) (s + 1) (completion R s) ∧
    (∀ t, s + 1 ≤ t → t ≤ completion R s → ∀ p,
      reports R t p = (decide (t = completion R s) && decide (p = resolutionPath R s))) ∧
    (∀ t, s + 1 ≤ t → t ≤ completion R s →
      immediateRedirectNow (R.state t) (R.input t) =
        (decide (t = completion R s) && decide (resolutionPath R s ≠ .registered) &&
          mispredicted R s op)) ∧
    (∀ t, s + 1 ≤ t → t ≤ completion R s + 1 →
      lateRedirectDetected (R.state t) =
        (decide (t = completion R s + 1) && decide (resolutionPath R s = .registered) &&
          mispredicted R s op)) ∧
    ∀ raw offset f3 other,
      EXU.rawLoadEqual raw offset f3 other = (ExtLoadData raw offset f3 == other) := by
  have hexec := (executes_branch h hop).1
  refine ⟨hexec, ?_, ?_, ?_, fun _ _ _ _ => EXU.rawLoadEqual_eq⟩
  · intro t hle hlast p
    rcases Nat.lt_or_eq_of_le hlast with hlt | rfl
    · simp [(quiet_before_completion h hop hle hlt).1 p, Nat.ne_of_lt hlt]
    · simp [reports_at_completion h hop]
  · intro t hle hlast
    rcases Nat.lt_or_eq_of_le hlast with hlt | rfl
    · simp [(quiet_before_completion h hop hle hlt).2.1, Nat.ne_of_lt hlt]
    · simp [immediate_at_completion h hop]
  · intro t hle hlast
    rcases Nat.lt_or_eq_of_le hlast with hlt | rfl
    · have hquiet : lateRedirectDetected (R.state t) = false := by
        rcases Nat.lt_or_eq_of_le hle with hafter | rfl
        · obtain ⟨v, rfl⟩ : ∃ v, t = v + 1 := ⟨t - 1, by omega⟩
          exact (quiet_before_completion h hop (by omega) (by omega)).2.2
        · -- a redirect in this cycle would have killed the branch on its way into EXU
          have hkill := (exuInValid_iff.mp h.arrives).2.2
          simp only [lateRedirectKill, Bool.or_eq_false_iff] at hkill
          exact hkill.1
      simp [hquiet, Nat.ne_of_lt hlt]
    · simp [late_after_completion h hop]

/-- `addi x1, x0, 5`, then `bne x1, x0` over and over. -/
def bneRun : Run machine :=
  machine.runFrom
    (fun t => ⟨true, ⟨true, if t = 1 then 0x00500093#32 else 0x00009463#32⟩, true, ⟨true, 0⟩⟩)
    Soc.PowerUp.core Soc.PowerUp.coreReset

theorem branches_resolve_once_bne :
    resolutionPath bneRun 3 = .registered ∧ mispredicted bneRun 3 .bne = true ∧
      immediateRedirectNow (bneRun.state 4) (bneRun.input 4) = false ∧
      lateRedirectDetected (bneRun.state 5) = true := by
  have hissues : Issues bneRun 3 := ⟨by decide +kernel, by decide +kernel, by decide +kernel⟩
  have hinst : IDU.inst (issuing bneRun 3) = 0x00009463#32 := by decide +kernel
  have hop : BranchOp.bne.Encodes (IDU.inst (issuing bneRun 3)) := by
    rw [hinst]
    exact ⟨by decide, by decide⟩
  have hu : completion bneRun 3 = 4 := by decide +kernel
  have hpath : resolutionPath bneRun 3 = .registered := by decide +kernel
  have hwrong : mispredicted bneRun 3 .bne = true := by decide +kernel
  rcases branches_resolve_once bneRun 3 hissues .bne hop with ⟨_, _, himm, hlate, _⟩
  refine ⟨hpath, hwrong, ?_, ?_⟩
  · simpa [hu, hpath] using himm 4 (by omega) (by omega)
  · simpa [hu, hpath, hwrong] using hlate 5 (by omega) (by omega)

end CPUCore

end Core
end Jyd
