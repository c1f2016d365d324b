import Jyd.Core.Redirect

/-!
# FetchProgress — an empty EXU is refilled

While EXU waits, nothing holds IDU back but a load in LSU, which is gone in the next
cycle; and a stage that holds an instruction of an old epoch gives it up at once.  So
every fetch brings the next instruction one stage closer.
-/

namespace Jyd
namespace Core
namespace CPUCore

open Hdl

variable {r : Regs} {i : In}

/-- EXU waits for an instruction and no late redirect is on its way. -/
structure Waiting (r : Regs) : Prop where
  exu : exuInValid r = false
  late : r.lateRedirectNow = false
  detected : lateRedirectDetected r = false

/-- IDU holds an instruction of the current epoch. -/
def iduLive (r : Regs) : Bool := r.iduPipe.valid && iduEpochMatch r

/-- IFU fetches an instruction of the current epoch. -/
def ifuLive (r : Regs) : Bool :=
  match r.ifu.state with
  | .idle => false
  | .waitReq => r.ifu.pending.epoch == r.pipelineEpoch
  | .waitResp => r.ifu.req.epoch == r.pipelineEpoch
  | .waitOut => r.ifu.req.epoch == r.pipelineEpoch

theorem no_fire_of_invalid (h : exuInValid r = false) : exuInFire r i = false := by
  refine Bool.eq_false_iff.mpr ?_
  intro hfire
  exact Bool.false_ne_true (h.symm.trans (exuInValid_of_inFire hfire))

/-- An EXU latch without a live instruction takes whatever IDU offers. -/
theorem allowIn_of_invalid (h : exuInValid r = false) :
    r.exuPipe.allowIn (exuPipeReady r i) = true := by
  simp only [exuInValid, Bool.and_eq_false_iff, Bool.not_eq_false'] at h
  rcases h with (hv | hepoch) | hkill
  · simp [Pipe.allowIn, hv]
  · simp [Pipe.allowIn, exuPipeReady, hepoch]
  · simp [Pipe.allowIn, exuPipeReady, hkill]

/-! ## EXU and IDU -/

section Waiting

variable (he : ExuOk r) (h : Waiting r)

include he h

theorem epoch_of_waiting : (next r i).pipelineEpoch = r.pipelineEpoch := by
  have hredirect : redirectNow r i = false := by
    simp [redirectNow, no_redirect_of_no_fire he (no_fire_of_invalid h.exu), h.late]
  simp [next, hredirect]

theorem exuInValid_of_waiting : exuInValid (next r i) = IDU.outValid (iduIn r i) := by
  have hpipe : (next r i).exuPipe = ⟨IDU.outValid (iduIn r i), IDU.outBits (iduIn r i)⟩ := by
    simp [next, Pipe.next, allowIn_of_invalid h.exu]
  have hkill : lateRedirectKill (next r i) = false := by
    have hdet := lsu_next_of_no_fire he (no_fire_of_invalid (i := i) h.exu)
    have hnow : (next r i).lateRedirectNow = lateRedirectDetected r := rfl
    simp [lateRedirectKill, hdet, hnow, h.detected]
  cases hv : IDU.outValid (iduIn r i) with
  | false => simp [exuInValid, hpipe, hv]
  | true =>
    -- what IDU lets through has passed its own epoch filter
    have hmatch : iduEpochMatch r = true := by
      simp only [IDU.outValid, iduIn, Bool.and_eq_true] at hv
      exact hv.1.2
    have hepoch : exuEpochMatch (next r i) = iduEpochMatch r := by
      rw [exuEpochMatch, hpipe, epoch_of_waiting he h]
      rfl
    simp [exuInValid, hepoch, hmatch, hkill, hpipe, hv]

theorem waiting_next (hv : IDU.outValid (iduIn r i) = false) : Waiting (next r i) where
  exu := (exuInValid_of_waiting he h).trans hv
  late := h.detected
  detected := lsu_next_of_no_fire he (no_fire_of_invalid h.exu)

theorem lsu_of_waiting : (next r i).lsuPipe.valid = false := by
  rw [lsuPipe_next, exuOutValid_eq he]
  exact no_fire_of_invalid h.exu

theorem iduLive_of_stall (hl : iduLive r = true) (hv : IDU.outValid (iduIn r i) = false) :
    iduLive (next r i) = true := by
  simp only [iduLive, Bool.and_eq_true] at hl
  have hstall : IDU.needStall (iduIn r i) = true := by
    simpa [IDU.outValid, iduIn, hl] using hv
  have hready : iduPipeReady r i = false := by simp [iduPipeReady, IDU.inReady, hstall, hl.2]
  have hpipe : (next r i).iduPipe = r.iduPipe := by
    simp [next, Pipe.next, Pipe.allowIn, hl.1, hready]
  have hepoch := epoch_of_waiting (i := i) he h
  simp only [iduLive, iduEpochMatch, hpipe, hepoch, Bool.and_eq_true]
  exact hl

omit he in
/-- With EXU and LSU empty there is no hazard. -/
theorem outValid_of_drained (hl : iduLive r = true) (hlsu : r.lsuPipe.valid = false) :
    IDU.outValid (iduIn r i) = true := by
  simp only [iduLive, Bool.and_eq_true] at hl
  have hexu : (iduIn r i).exu.enWr = false := by simp [iduIn, EXU.fwd, exuIn, h.exu]
  have hlsu' : (iduIn r i).lsu.enWr = false := by simp [iduIn, ExtractFwdInfoFromLSU, hlsu]
  have hstall : IDU.needStall (iduIn r i) = false := by
    simp [IDU.needStall, IDU.byPass1, IDU.byPass2, IDU.CacheAwareByPassMux, IDU.conflict,
      IDU.needStallAddress, IDU.addressExuConflict, IDU.addressLsuConflict, hexu, hlsu']
  have hvalid : (iduIn r i).valid = true := by simp [iduIn, hl]
  simp [IDU.outValid, hvalid, hstall]

end Waiting

/-! ## IFU -/

section Fetch

variable (hl : iduLive r = false)

include hl

theorem outValid_of_not_live : IDU.outValid (iduIn r i) = false := by
  have hvalid : (iduIn r i).valid = false := hl
  simp [IDU.outValid, hvalid]

theorem iduAllowIn_of_not_live : r.iduPipe.allowIn (iduPipeReady r i) = true := by
  simp only [iduLive, Bool.and_eq_false_iff] at hl
  rcases hl with hv | hm
  · simp [Pipe.allowIn, hv]
  · simp [Pipe.allowIn, iduPipeReady, hm]

theorem iduPipe_of_not_live : (next r i).iduPipe =
    ⟨IFU.outValid r.ifu (ifuIn r i), IFU.outBits r.ifu (ifuIn r i)⟩ := by
  simp [next, Pipe.next, iduAllowIn_of_not_live hl]

/-- IFU hands its instruction on and starts the next fetch in the same cycle.  Until then it
keeps its instruction. -/
theorem live_next (hepoch : (next r i).pipelineEpoch = r.pipelineEpoch) :
    iduLive (next r i) = (ifuPcReady r i && ifuLive r) ∧
      ifuLive (next r i) = (ifuPcReady r i || ifuLive r) := by
  have hpipe := iduPipe_of_not_live (i := i) hl
  have hout : (ifuIn r i).outReady = true := iduAllowIn_of_not_live hl
  have hpc : (ifuIn r i).pcValid = true := rfl
  have hin : (ifuIn r i).epoch = r.pipelineEpoch := rfl
  have hifu : (next r i).ifu = IFU.next r.ifu (ifuIn r i) := rfl
  simp only [iduLive, iduEpochMatch, ifuLive, ifuPcReady, hpipe, hepoch, hifu]
  cases hs : r.ifu.state <;> cases hm : (ifuIn r i).memReqReady <;>
    cases hv : (ifuIn r i).memResp.valid <;>
      simp_all [IFU.pcReady_eq, IFU.isWaitingRespMeetValid, IFU.outValid, IFU.outBits, IFU.next,
        IFU.nxtStateWhenAcceptInput, IFU.inputReqFire, IFU.pcFire, IFU.pendingReqFire,
        IFU.pendingReqValid, IFU.accepted]

theorem pcReady_of_not_live
    (h : r.ifu.state = .idle ∨ r.ifu.state = .waitOut ∨
      (r.ifu.state = .waitResp ∧ i.iromResp.valid = true)) : ifuPcReady r i = true := by
  have hout : (ifuIn r i).outReady = true := iduAllowIn_of_not_live hl
  have hresp : (ifuIn r i).memResp.valid = i.iromResp.valid := rfl
  rcases h with hs | hs | ⟨hs, hv⟩
  · simp [ifuPcReady, IFU.pcReady, hs]
  · simp [ifuPcReady, IFU.pcReady_eq, hs, hout]
  · simp [ifuPcReady, IFU.pcReady, IFU.consumeResp, IFU.isWaitingRespMeetValid, hs, hout, hresp, hv]

end Fetch

theorem ifu_of_waitReq (hs : r.ifu.state = .waitReq) :
    ifuPcReady r i = false ∧
      (next r i).ifu.state = if i.iromReqReady then .waitResp else .waitReq := by
  have hready : (ifuIn r i).memReqReady = i.iromReqReady := rfl
  have hifu : (next r i).ifu = IFU.next r.ifu (ifuIn r i) := rfl
  refine ⟨?_, ?_⟩
  · simp [ifuPcReady, IFU.pcReady_eq, hs]
  · simp [hifu, IFU.next, IFU.pendingReqFire, IFU.pendingReqValid, hs, hready]

theorem ifu_of_waitResp (hs : r.ifu.state = .waitResp) (hv : i.iromResp.valid = false) :
    ifuPcReady r i = false ∧ (next r i).ifu.state = .waitResp := by
  have hresp : (ifuIn r i).memResp.valid = i.iromResp.valid := rfl
  have hifu : (next r i).ifu = IFU.next r.ifu (ifuIn r i) := rfl
  refine ⟨?_, ?_⟩
  · simp [ifuPcReady, IFU.pcReady_eq, hs, hresp, hv]
  · simp [hifu, IFU.next, hs, hresp, hv]

end CPUCore
end Core
end Jyd
