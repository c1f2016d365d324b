import Jyd.Core.Redirect
import Jyd.Soc.JydSoC

/-!
# ControlFlow — the executed path of a program in ROM

The front-end invariants of the core, closed with the instruction ROM, hold along
every run of the SoC.  The instructions EXU takes are then exactly the control-flow
chain of the program.
-/

namespace Jyd
namespace Soc
namespace JYDSoC

open Hdl Jyd.Core TrimmedPC

/-- The program as the trimmed program counter addresses it. -/
def program (c : Config) : Program := fun a => romWord c.rom (expand a)

variable {c : Config} {s : Regs} {i : In} {expected : BitVec 15}

/-! ## The ROM port answers IFU -/

/-- A request is outstanding exactly while IFU waits for it. -/
def RomOk (s : Regs) : Prop :=
  match s.irom with
  | some addr => s.core.ifu.state = .waitResp ∧ addr = s.core.ifu.req.pc
  | none => s.core.ifu.state ≠ .waitResp

theorem romAnswers (hf : CPUCore.FrontOk (program c) s.core) (h : RomOk s) :
    CPUCore.RomAnswers (program c) s.core (coreIn c i s) := by
  cases hp : s.irom with
  | none =>
    have hno : (coreIn c i s).iromResp.valid = false := by simp [coreIn, RomPort.resp, hp]
    exact ⟨fun hv => absurd (hno.symm.trans hv) (by decide),
      fun hv => absurd (hno.symm.trans hv) (by decide)⟩
  | some addr =>
    simp only [RomOk, hp] at h
    refine ⟨fun _ => h.1, fun _ => ?_⟩
    have hreq := (hf.waitResp h.1).pc
    simp only [coreIn, RomPort.resp, hp, program]
    rw [h.2, ← hreq]

theorem ifu_next_of_request {f : IFU.Regs} {j : IFU.In} (hpc : j.pcValid = true)
    (h : (IFU.memReqValid f j && j.memReqReady) = true) :
    (IFU.next f j).state = .waitResp ∧ (IFU.next f j).req.pc = IFU.memReqAddr f j := by
  rcases (Bool.and_eq_true _ _).mp h with ⟨hreq, hready⟩
  cases hs : f.state <;>
    simp_all [IFU.memReqValid, IFU.pcFire, IFU.pcReady_eq, IFU.pendingReqValid, IFU.next,
      IFU.nxtStateWhenAcceptInput, IFU.inputReqFire, IFU.pendingReqFire, IFU.memReqAddr,
      IFU.accepted]

theorem ifu_next_of_no_request {f : IFU.Regs} {j : IFU.In} (hpc : j.pcValid = true)
    (h : (IFU.memReqValid f j && j.memReqReady) = false) :
    if f.state = .waitResp ∧ j.memResp.valid = false then
      (IFU.next f j).state = .waitResp ∧ (IFU.next f j).req = f.req
    else (IFU.next f j).state ≠ .waitResp := by
  cases hs : f.state <;> cases hr : j.memReqReady <;> cases hv : j.memResp.valid <;>
    cases ho : j.outReady <;>
      simp_all [IFU.memReqValid, IFU.pcFire, IFU.pcReady_eq, IFU.pendingReqValid, IFU.next,
        IFU.nxtStateWhenAcceptInput, IFU.inputReqFire, IFU.pendingReqFire]

theorem romOk_next (h : RomOk s) : RomOk (next c i s) := by
  have hpc : (CPUCore.ifuIn s.core (coreIn c i s)).pcValid = true := rfl
  have hifu : (next c i s).core.ifu = IFU.next s.core.ifu (CPUCore.ifuIn s.core (coreIn c i s)) := rfl
  have hirom : (next c i s).irom =
      RomPort.next s.irom i.irom
        (IFU.memReqValid s.core.ifu (CPUCore.ifuIn s.core (coreIn c i s)))
        (IFU.memReqAddr s.core.ifu (CPUCore.ifuIn s.core (coreIn c i s))) := rfl
  have hready : (CPUCore.ifuIn s.core (coreIn c i s)).memReqReady = i.irom.ready := rfl
  have hresp : (CPUCore.ifuIn s.core (coreIn c i s)).memResp =
      RomPort.resp c.rom s.irom i.irom := rfl
  -- the port holds at most one address, the one IFU is waiting for
  cases hreq : IFU.memReqValid s.core.ifu (CPUCore.ifuIn s.core (coreIn c i s)) &&
      i.irom.ready with
  | true =>
    have hstep := ifu_next_of_request hpc (by rw [hready]; exact hreq)
    simp only [RomOk, hirom, RomPort.next, hreq, if_true, hifu]
    exact ⟨hstep.1, hstep.2.symm⟩
  | false =>
    have hstep := ifu_next_of_no_request hpc (by rw [hready]; exact hreq)
    cases hp : s.irom with
    | none =>
      simp only [RomOk, hp] at h
      simp only [h, false_and, if_false] at hstep
      simpa [RomOk, hirom, RomPort.next, hreq, hp, hifu] using hstep
    | some addr =>
      simp only [RomOk, hp] at h
      cases ha : i.irom.answer with
      | true =>
        simp only [hresp, RomPort.resp, hp, ha, Bool.true_eq_false, and_false,
          if_false] at hstep
        simpa [RomOk, hirom, RomPort.next, hreq, ha, hifu] using hstep
      | false =>
        simp only [hresp, RomPort.resp, hp, ha, h.1, and_self, if_true] at hstep
        simp only [RomOk, hirom, RomPort.next, hreq, ha, hp, hifu, Bool.false_eq_true,
          if_false, hstep.1, hstep.2, true_and]
        exact h.2

/-! ## The invariant of the front end -/

structure FrontInv (c : Config) (s : Regs) (expected : BitVec 15) : Prop where
  front : CPUCore.FrontOk (program c) s.core
  exu : CPUCore.ExuOk s.core
  rom : RomOk s
  phase : CPUCore.Phase s.core expected

theorem FrontInv.next (h : FrontInv c s expected) :
    FrontInv c (next c i s) (CPUCore.nextExpected s.core (coreIn c i s) expected) where
  front := CPUCore.frontOk_next h.front (romAnswers h.front h.rom) (fun hout => by
    rw [CPUCore.exuOutFire_eq h.exu] at hout
    exact (CPUCore.exuInValid_iff.mp (CPUCore.exuInValid_of_inFire hout)).1)
  exu := CPUCore.exuOk_next h.exu (fun hv => (h.front.exu hv).decoded)
  rom := romOk_next h.rom
  phase := CPUCore.phase_next h.front h.exu h.phase

theorem frontInv_of_reset (h : Reset s) : FrontInv c s (trim CPUCore.INIT_PC) := by
  have hc := h.core
  have hv : EXU.Vacant s.core.exu :=
    ⟨hc.exu.listReverseState, hc.exu.xmsumState, hc.exu.xdfaWordState, hc.exu.csrPrepared,
      hc.exu.capturedLateLoadValid, hc.exu.lateOtherOperandCaptured⟩
  have hflight : CPUCore.flight s.core = [] := by
    simp [CPUCore.flight, CPUCore.exuSlot, CPUCore.iduSlot, CPUCore.ifuSlot, hc.iduPipe, hc.exuPipe,
      hc.ifuState]
  refine ⟨⟨?_, ?_, ?_, ?_, ?_, ?_, ⟨?_, ?_⟩, ?_⟩, hv.occupied, ?_, ?_⟩
  · rw [hc.pc]
    decide
  · simp [hc.ifuState]
  · simp [hc.ifuState]
  · simp [hc.ifuState]
  · simp [hc.iduPipe]
  · simp [hc.exuPipe]
  · simp [hc.initDone, hc.initCount, BitVec.lt_def]
  · simp [hc.initDone]
  · simp [hc.branchUpdateFireReg]
  · simp [RomOk, h.irom, hc.ifuState]
  · refine CPUCore.Phase.running hc.redirectPendingReg hc.lateRedirectNow ?_ ?_
    · simp [CPUCore.lateRedirectDetected, CPUCore.lsuInFire, hc.lsuPipe]
    · rw [hflight, hc.pc]
      exact ⟨List.Pairwise.nil, fun a ha => Option.some.inj ha⟩

/-! ## Accepted instructions -/

/-- An instruction EXU takes from IDU, with the outcomes that steer the program. -/
structure Accepted where
  inst : DecodedInst
  nxtPC : Word
  taken : Bool
  loopTaken : Bool
  mtvec : Word
  mepc : Word

def accept (c : Config) (i : In) (s : Regs) : Option Accepted :=
  let e := s.core.exu
  let j := CPUCore.exuIn s.core (coreIn c i s)
  if EXU.inFire e j then
    some
      { inst := j.dinst
        nxtPC := EXU.nxtPC e j
        taken := EXU.takeBranch e j
        loopTaken := e.listReverse.listReverseLoopTaken
        mtvec := ControlStatusRegisterFile.mtvec e.csr.csrs
        mepc := ControlStatusRegisterFile.mepc e.csr.csrs }
  else none

/-- Fall-through, taken target, jump target, `mtvec` or `mepc`. -/
def Accepted.continuation (a : Accepted) : Word :=
  EXU.continuation a.inst a.taken a.loopTaken a.mtvec a.mepc

/-- What the invariant says about an instruction that is taken in this cycle. -/
theorem accept_spec {a : Accepted} (h : FrontInv c s expected) (ha : accept c i s = some a) :
    a.inst.pc = expand expected ∧ a.inst.code = romWord c.rom a.inst.pc ∧
      a.nxtPC = a.continuation ∧
      a.nxtPC = expand (CPUCore.nextExpected s.core (coreIn c i s) expected) := by
  have hfire : CPUCore.exuInFire s.core (coreIn c i s) = true := by
    by_contra hno
    have hno' : EXU.inFire s.core.exu (CPUCore.exuIn s.core (coreIn c i s)) = false := by
      simpa [CPUCore.exuInFire] using hno
    simp [accept, hno'] at ha
  have hv := (CPUCore.exuInValid_iff.mp (CPUCore.exuInValid_of_inFire hfire)).1
  have hd := h.front.exu hv
  have hnext : CPUCore.nextExpected s.core (coreIn c i s) expected =
      trim (EXU.nxtPC s.core.exu (CPUCore.exuIn s.core (coreIn c i s))) := by
    simp [CPUCore.nextExpected, hfire]
  have hfire' : EXU.inFire s.core.exu (CPUCore.exuIn s.core (coreIn c i s)) = true := hfire
  simp only [accept, hfire', if_true, Option.some.injEq] at ha
  subst ha
  refine ⟨CPUCore.pc_of_valid h.front h.phase (CPUCore.exuInValid_of_inFire hfire), ?_, ?_, ?_⟩
  · exact hd.code.trans (by rw [program, ← hd.pc]; rfl)
  · exact EXU.nxtPC_eq_continuation h.exu hd.decoded hfire
  · rw [hnext, EXU.expand_trim_nxtPC hd.pc]

/-! ## Along a run -/

section Run

variable (R : Run (machine c))

/-- The continuation that the run has reached. -/
def expectedAt : ℕ → BitVec 15 :=
  R.observe (trim CPUCore.INIT_PC) (fun i s => CPUCore.nextExpected s.core (coreIn c i s))

/-- Redirects so far, and at the fetch of each instruction in flight. -/
def generationAt : ℕ → CPUCore.Generation :=
  R.observe ⟨0, 0, 0, 0⟩ (fun i s g => g.watch s.core (coreIn c i s))

theorem frontInv (t : ℕ) : FrontInv c (R.state t) (expectedAt R t) :=
  R.observe_invariant _ _ (FrontInv c) (fun _ h => frontInv_of_reset h)
    (fun _ _ _ h => FrontInv.next h) t

theorem generationOk (t : ℕ) : CPUCore.GenerationOk (R.state t).core (generationAt R t) := by
  induction t with
  | zero =>
    have hc := R.init.core
    refine ⟨?_, ?_, ?_⟩
    · simp [CPUCore.ifuSlot, hc.ifuState]
    · simp [hc.iduPipe]
    · simp [hc.exuPipe]
  | succ t ih =>
    have h := frontInv R t
    rw [R.step t]
    exact CPUCore.generationOk_next h.front h.exu h.phase ih

/-- EXU executes the program: the instructions it takes start at the reset pc, are the
words of the ROM, and each continues where its predecessor said.  The one-bit epoch tells
the instructions fetched after the last redirect from all others, and a pending mailbox
keeps its target until the fetch side consumes it. -/
theorem accepted_controlFlow (c : Config) (R : Run (machine c)) :
    (∀ n, (∀ a ∈ (R.events (accept c) n).head?, a.inst.pc = CPUCore.INIT_PC) ∧
        (R.events (accept c) n).IsChain (fun a b => b.inst.pc = a.nxtPC) ∧
        ∀ a ∈ R.events (accept c) n,
          a.inst.code = romWord c.rom a.inst.pc ∧ a.nxtPC = a.continuation) ∧
      (∀ t, ((R.state t).core.iduPipe.valid = true →
          (CPUCore.iduEpochMatch (R.state t).core = true ↔
            (generationAt R t).idu = (generationAt R t).redirects)) ∧
        ((R.state t).core.exuPipe.valid = true →
          (CPUCore.exuEpochMatch (R.state t).core = true ↔
            (generationAt R t).exu = (generationAt R t).redirects))) ∧
      (∀ t, (R.state t).core.redirectPendingReg = true →
        CPUCore.redirectTarget (R.state (t + 1)).core = CPUCore.redirectTarget (R.state t).core ∧
          (CPUCore.redirectPendingFire (R.state t).core (coreIn c (R.input t) (R.state t)) = false →
            (R.state (t + 1)).core.redirectPendingReg = true)) := by
  refine ⟨?_, ?_, ?_⟩
  · intro n
    -- the ghost pc predicts every accepted instruction and moves to its successor
    have hchain := R.events_chain (accept c) (fun a => a.inst.pc) (fun a => a.nxtPC)
      (fun t => expand (expectedAt R t)) ?_ ?_ n
    · refine ⟨?_, hchain.2, ?_⟩
      · intro a ha
        have hreset : expand (trim CPUCore.INIT_PC) = CPUCore.INIT_PC := by decide
        exact (hchain.1 a ha).trans hreset
      · intro a ha
        rcases R.mem_events ha with ⟨t, ht⟩
        have hspec := accept_spec (frontInv R t) ht
        exact ⟨hspec.2.1, hspec.2.2.1⟩
    · intro t ht
      have hno : CPUCore.exuInFire (R.state t).core (coreIn c (R.input t) (R.state t)) = false := by
        by_contra hfire
        have hfire' : EXU.inFire (R.state t).core.exu
            (CPUCore.exuIn (R.state t).core (coreIn c (R.input t) (R.state t))) = true := by
          simpa [CPUCore.exuInFire] using hfire
        simp [accept, hfire'] at ht
      have hkeep : expectedAt R (t + 1) = expectedAt R t := by
        simp [expectedAt, Run.observe, CPUCore.nextExpected, hno]
      exact congrArg expand hkeep
    · intro t a ht
      have hspec := accept_spec (frontInv R t) ht
      exact ⟨hspec.1, hspec.2.2.2.symm⟩
  · intro t
    have hg := generationOk R t
    refine ⟨fun hv => ?_, fun hv => ?_⟩
    · simpa [CPUCore.iduEpochMatch] using (hg.idu hv).iff
    · simpa [CPUCore.exuEpochMatch] using (hg.exu hv).iff
  · intro t hpend
    have h := frontInv R t
    rw [R.step t]
    have hkept := CPUCore.mailbox_kept (i := coreIn c (R.input t) (R.state t)) h.front h.exu h.phase
      hpend
    refine ⟨hkept.2, fun hfire => ?_⟩
    simp [machine, next, CPUCore.next, hkept.1, hfire, hpend]

end Run

end JYDSoC
end Soc
end Jyd
