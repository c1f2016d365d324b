import Jyd.Soc.ControlFlow
import Jyd.Soc.PowerUp

/-!
# BtbContract — the branch target buffer over a whole run

Every entry is kept twice, once for predicting and once for updating its direction
counter.  Both copies are written in the same cycle from the same registered update,
so they agree on everything they share.  What an entry says about a pc is true of the
program, and decode asks a `JAL` for nothing but a hit.
-/

namespace Jyd
namespace Core

open Hdl TrimmedPC

namespace BTB

/-! ## The two copies -/

/-- The query copy and the update-state copy of an entry say the same. -/
structure CopiesAgree (e : BTBEntry) (s : BTBUpdateState) : Prop where
  valid : s.valid = (e.entryType != .invalid)
  tag : s.tag = e.tag
  isBranch : s.isBranch = (e.entryType == .branch)
  directionCounter : s.directionCounter = e.directionCounter

theorem copiesAgree_zero : CopiesAgree BTBEntry.zero BTBUpdateState.zero :=
  ⟨rfl, rfl, rfl, rfl⟩

theorem copiesAgree_update {r : Regs} {u : Update} (h : updateEn r u = true) :
    CopiesAgree (nextEntry r u) (nextUpdateState r u) := by
  refine ⟨?_, rfl, ?_, rfl⟩
  · -- an update that names no kind of control instruction is not written
    simp only [updateEn, Bool.and_eq_true] at h
    exact h.1.1.2.symm
  · cases hb : u.isBranch with
    | true => simp [nextUpdateState, nextEntry, hb]
    | false =>
      cases hret : u.isReturn <;> cases hj : u.isJAL <;>
        simp [nextUpdateState, nextEntry, hb, hret, hj]

/-- What a valid entry says about the instruction at `a`. -/
def Describes (prog : Program) (a : BitVec 15) (e : BTBEntry) : Prop :=
  match e.entryType with
  | .invalid => True
  | .branch => BranchTarget prog a e.target
  | .jal => JalTarget prog a e.target
  | .ret => IDU.isPredictableReturn (prog a) = true

theorem describes_of_tag {prog : Program} {a : BitVec 15} {e : BTBEntry}
    (h : EntryOk prog (extractIndex (expand a)) e) (htag : e.tag = extractTag (expand a)) :
    Describes prog a e := by
  have haddr : e.tag ++ extractIndex (expand a) = a := by
    rw [htag, tag_append_index, trim_expand]
  rw [EntryOk, haddr] at h
  exact h

end BTB

/-! ## Predictions for a direct jump -/

theorem PredOk.of_jal {prog : Program} {a : BitVec 15} {p : PredBundle} (h : PredOk prog a p)
    (hjal : IDU.isTyp (prog a) .jal = true) (hhit : p.hit = true) :
    p.take = true ∧ trim p.pc = directTarget prog a := by
  rcases h.hit hhit with ⟨_, hbr, _⟩ | ⟨htake, htarget⟩ | ⟨_, hret⟩
  · exact absurd (Or.inl hjal) (IDU.branchTarget_not_jump hbr)
  · exact ⟨htake, htarget.2⟩
  · have htyp := congrArg InstMetaInfo.typ (IDU.metaInfo_return _ hret)
    simp [IDU.isTyp, htyp] at hjal

/-- A hit is all decode asks of a direct jump. -/
theorem IDU.notBranchPredWrong_of_jal {j : IDU.In} (hjal : IDU.isTyp (IDU.inst j) .jal = true)
    (hhit : j.bits.pred.hit = true) : IDU.notBranchPredWrong j = false := by
  have htyp : (IDU.metaInfo (IDU.inst j)).typ = .jal := by simpa [IDU.isTyp] using hjal
  have hecall : IDU.isECall (IDU.inst j) = false :=
    Bool.eq_false_iff.mpr fun h => by simp [IDU.metaInfo_ecall _ h] at htyp
  have hmret : IDU.isMRet (IDU.inst j) = false :=
    Bool.eq_false_iff.mpr fun h => by simp [IDU.metaInfo_mret _ h] at htyp
  have hret : IDU.isPredictableReturn (IDU.inst j) = false :=
    Bool.eq_false_iff.mpr fun h => by simp [IDU.metaInfo_return _ h] at htyp
  simp [IDU.notBranchPredWrong, IDU.returnTargetPredWrong, hecall, hmret, hret, hhit, IDU.isTyp,
    htyp]

namespace EXU

variable {prog : Program} {r : Regs} {i : In}

/-- A direct jump whose prediction decode kept is not redirected and reaches its target. -/
theorem jal_kept (hd : Decoded i.dinst) (hpc : i.dinst.pc = expand (trim i.dinst.pc))
    (hcode : i.dinst.code = prog (trim i.dinst.pc)) (hjal : isTypJAL i.dinst = true)
    (hkeep : i.dinst.info.notBranchPredWrong = false) :
    immediatePredWrong r i = false ∧ nxtPC r i = expand (directTarget prog (trim i.dinst.pc)) := by
  have htyp : i.dinst.info.typ = .jal := by simpa [isTypJAL] using hjal
  have hbranch : isTypBranch i.dinst = false := by simp [isTypBranch, htyp]
  have hloop : listReverseLoopBranch r i = false := by
    simp [listReverseLoopBranch, not_listReverseLoop hd (by simp [isTypArithmetic, htyp])]
  have hdirect : trim i.dinst.info.pcAddImm = directTarget prog (trim i.dinst.pc) := by
    rw [hd.pcAddImm_eq, directTarget, ← hpc, ← hcode]
  refine ⟨?_, ?_⟩
  · simp [immediatePredWrong, hloop, isFmtB_eq hd, hbranch, hkeep]
  · simp [nxtPC, normalNxtPC, hloop, hjal, isTypJALR, htyp, hdirect]

end EXU

end Core

namespace Soc
namespace JYDSoC

open Hdl Jyd.Core TrimmedPC

section Run

variable {c : Config} (R : Run (machine c))

/-! ## The copies over a run -/

theorem copiesAgree_at (t : ℕ) :
    BTB.Filled (fun _ e s => BTB.CopiesAgree e s) (R.state t).core.btb := by
  induction t with
  | zero =>
    have hc := R.init.core
    constructor
    · intro k hk
      simp [hc.initDone, hc.initCount, BitVec.lt_def] at hk
    · intro hdone
      simp [hc.initDone] at hdone
  | succ t ih =>
    rw [R.step t]
    exact ih.next (fun _ => BTB.copiesAgree_zero) BTB.copiesAgree_update

/-! ## The contract -/

/-- The copies agree, entries describe the program, and a direct jump that hits is
predicted exactly: at the query, in decode and in execution. -/
theorem btb_describes_program (t : ℕ) (hdone : (R.state t).core.btb.initDone = true) :
    (∀ k, BTB.CopiesAgree ((R.state t).core.btb.queryMem k)
      ((R.state t).core.btb.updateStateMem k)) ∧
    (∀ a, ((R.state t).core.btb.queryMem (BTB.extractIndex (expand a))).tag =
        BTB.extractTag (expand a) →
      BTB.Describes (program c) a
        ((R.state t).core.btb.queryMem (BTB.extractIndex (expand a)))) ∧
    (∀ a, IDU.isTyp (program c a) .jal = true →
      (BTB.query (R.state t).core.btb (expand a)).hit = true →
      let p := BranchPredictor.pred (R.state t).core.bp (expand a)
        (BTB.query (R.state t).core.btb (expand a))
      p.take = true ∧ trim p.pc = directTarget (program c) a) ∧
    ((R.state t).core.iduPipe.valid = true →
      IDU.isTyp (R.state t).core.iduPipe.bits.code .jal = true →
      (R.state t).core.iduPipe.bits.pred.hit = true →
      trim (R.state t).core.iduPipe.bits.pred.pc =
          directTarget (program c) (trim (R.state t).core.iduPipe.bits.pc) ∧
        ∀ i, (IDU.outBits (CPUCore.iduIn (R.state t).core i)).info.notBranchPredWrong = false) ∧
    ((R.state t).core.exuPipe.valid = true →
      EXU.isTypJAL (R.state t).core.exuPipe.bits = true →
      (R.state t).core.exuPipe.bits.info.notBranchPredWrong = false →
      ∀ i, EXU.immediatePredWrong (R.state t).core.exu (CPUCore.exuIn (R.state t).core i) = false ∧
        EXU.nxtPC (R.state t).core.exu (CPUCore.exuIn (R.state t).core i) =
          expand (directTarget (program c) (trim (R.state t).core.exuPipe.bits.pc))) := by
  -- the entries of the query copy are those of the front-end invariant
  have hfront := (frontInv R t).front
  refine ⟨?_, ?_, ?_, ?_, ?_⟩
  · intro k
    exact (copiesAgree_at R t).entries k (Or.inl hdone)
  · intro a htag
    exact BTB.describes_of_tag (hfront.btb.entries _ (Or.inl hdone)) htag
  · intro a hjal hhit
    exact (BranchPredictor.predOk hfront.btb a).of_jal hjal hhit
  · intro hv hjal hhit
    have hf := hfront.idu hv
    refine ⟨?_, ?_⟩
    · exact (hf.pred.of_jal (hf.code ▸ hjal) hhit).2
    · intro i
      exact IDU.notBranchPredWrong_of_jal (j := CPUCore.iduIn (R.state t).core i) hjal hhit
  · intro hv hjal hkeep i
    have hd := hfront.exu hv
    exact EXU.jal_kept (i := CPUCore.exuIn (R.state t).core i) hd.decoded hd.pc hd.code hjal hkeep

end Run

/-- `nop; j -4`. -/
def jumpLoop : Config := ⟨romOf [0x00000013#32, 0xffdff06f#32], 65536⟩

/-- The jump in the buffer, in decode with its hit, and a cycle later in execution. -/
theorem btb_describes_program_jumpLoop :
    let R := run jumpLoop
    (BTB.query (R.state 523).core.btb (expand 1)).isJAL = true ∧
      BTB.Describes (program jumpLoop) 1
        ((R.state 523).core.btb.queryMem (BTB.extractIndex (expand 1))) ∧
      (∀ k, BTB.CopiesAgree ((R.state 523).core.btb.queryMem k)
        ((R.state 523).core.btb.updateStateMem k)) ∧
      trim (BranchPredictor.pred (R.state 523).core.bp (expand 1)
        (BTB.query (R.state 523).core.btb (expand 1))).pc = 0#15 ∧
      (∀ i, (IDU.outBits (CPUCore.iduIn (R.state 523).core i)).info.notBranchPredWrong = false) ∧
      ∀ i, EXU.nxtPC (R.state 524).core.exu (CPUCore.exuIn (R.state 524).core i) =
        0x80000000#32 := by
  obtain ⟨R, hR, hdone, hhit, hentry, htag, hidu, hjal, hpred, hdone', hexu, hjal', hkeep, hpc⟩ :
      ∃ R, R = run jumpLoop ∧ (R.state 523).core.btb.initDone = true ∧
        (BTB.query (R.state 523).core.btb (expand 1)).hit = true ∧
        (BTB.query (R.state 523).core.btb (expand 1)).isJAL = true ∧
        ((R.state 523).core.btb.queryMem (BTB.extractIndex (expand 1))).tag =
          BTB.extractTag (expand 1) ∧
        (R.state 523).core.iduPipe.valid = true ∧
        IDU.isTyp (R.state 523).core.iduPipe.bits.code .jal = true ∧
        (R.state 523).core.iduPipe.bits.pred.hit = true ∧
        (R.state 524).core.btb.initDone = true ∧ (R.state 524).core.exuPipe.valid = true ∧
        EXU.isTypJAL (R.state 524).core.exuPipe.bits = true ∧
        (R.state 524).core.exuPipe.bits.info.notBranchPredWrong = false ∧
        trim (R.state 524).core.exuPipe.bits.pc = 1#15 :=
    ⟨_, rfl, by decide +kernel⟩
  rw [← hR]
  have hbuffer := btb_describes_program R 523 hdone
  have hexecute := btb_describes_program R 524 hdone'
  have htarget : directTarget (program jumpLoop) 1 = 0#15 := by decide
  refine ⟨hentry, hbuffer.2.1 1 htag, hbuffer.1, ?_, (hbuffer.2.2.2.1 hidu hjal hpred).2,
    fun i => ?_⟩
  · exact (hbuffer.2.2.1 1 (by decide) hhit).2.trans htarget
  · rw [(hexecute.2.2.2.2 hexu hjal' hkeep i).2, hpc]
    decide

end JYDSoC
end Soc
end Jyd
