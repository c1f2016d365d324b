import Jyd.Core.Flight

/-!
# Redirect — the mailbox, the epoch and the executed path

Four situations alternate.  The queue runs; a branch that left EXU turns out
mispredicted in LSU; its redirect is taken one cycle later; the mailbox waits for
the fetch side.  In each of them the next instruction that EXU can take is the one
the program continues with.
-/

namespace Jyd
namespace Core
namespace CPUCore

open Hdl TrimmedPC SpecQueue

variable {prog : Program} {r : Regs} {i : In} {expected : BitVec 15}

/-! ## EXU inside the core -/

/-- The multi-cycle state of EXU belongs to the instruction that passed the filters. -/
def ExuOk (r : Regs) : Prop := EXU.Occupied r.exu (exuInValid r) r.exuPipe.bits

theorem exuOutValid_eq (h : ExuOk r) : exuOutValid r i = exuInFire r i :=
  EXU.Occupied.outValid_eq_inFire (i := exuIn r i) h (exuOutReady_eq r)

theorem exuOutFire_eq (h : ExuOk r) : exuOutFire r i = exuInFire r i :=
  EXU.Occupied.outFire_eq_inFire (i := exuIn r i) h (exuOutReady_eq r)

theorem exuInValid_of_inFire (hfire : exuInFire r i = true) : exuInValid r = true := by
  simp only [exuInFire, EXU.inFire, Bool.and_eq_true] at hfire
  exact hfire.1

theorem no_redirect_of_no_fire (h : ExuOk r) (hfire : exuInFire r i = false) :
    immediateRedirectNow r i = false := by
  simp [immediateRedirectNow, exuOutValid_eq h, hfire]

theorem lsu_next_of_no_fire (h : ExuOk r) (hfire : exuInFire r i = false) :
    lateRedirectDetected (next r i) = false := by
  simp [lateRedirectDetected, lsuInFire, lsuPipe_next, exuOutValid_eq h, hfire]

/-- An instruction that has passed the filters stays until EXU completes it. -/
theorem exu_stays (h : ExuOk r) (hv : exuInValid r = true) (hfire : exuInFire r i = false) :
    exuInValid (next r i) = true ∧ (next r i).exuPipe.bits = r.exuPipe.bits := by
  rcases exuInValid_iff.mp hv with ⟨hpv, hepoch, hkill⟩
  have hparts : lateRedirectDetected r = false ∧ r.lateRedirectNow = false := by
    simpa [lateRedirectKill] using hkill
  have hnot : EXU.inReady r.exu (exuIn r i) = false := by
    have hval : (exuIn r i).valid = true := hv
    simpa [exuInFire, EXU.inFire, hval] using hfire
  have hready : exuPipeReady r i = false := by
    have hmatch : exuEpochMatch r = true := by simp [exuEpochMatch, hepoch]
    simp [exuPipeReady, hnot, hmatch, hkill]
  have hpipe : (next r i).exuPipe = r.exuPipe := by
    simp [next, Pipe.next, Pipe.allowIn, hpv, hready]
  have hredirect : redirectNow r i = false := by
    simp [redirectNow, no_redirect_of_no_fire h hfire, hparts.2]
  have hepoch' : (next r i).pipelineEpoch = r.pipelineEpoch := by
    simp [next, hredirect]
  have hkill' : lateRedirectKill (next r i) = false := by
    have hnow : (next r i).lateRedirectNow = false := hparts.1
    simp [lateRedirectKill, lsu_next_of_no_fire h hfire, hnow]
  refine ⟨exuInValid_iff.mpr ⟨?_, ?_, hkill'⟩, by rw [hpipe]⟩
  · rw [hpipe]
    exact hpv
  · rw [hpipe, hepoch']
    exact hepoch

theorem exuOk_next (h : ExuOk r) (hd : r.exuPipe.valid = true → Decoded r.exuPipe.bits) :
    ExuOk (next r i) := by
  have hout : (exuIn r i).outReady = true := exuOutReady_eq r
  cases hfire : exuInFire r i with
  | true =>
    have hv := exuInValid_of_inFire hfire
    exact (EXU.Occupied.vacant_next_of_inFire (i := exuIn r i) h
      (hd (exuInValid_iff.mp hv).1) hout hfire).occupied
  | false =>
    cases hv : exuInValid r with
    | false => exact (EXU.Occupied.vacant_next_of_invalid (i := exuIn r i) h hv).occupied
    | true =>
      rcases exu_stays h hv hfire with ⟨hv', hbits⟩
      rw [ExuOk, hv', hbits]
      exact EXU.Occupied.stay (i := exuIn r i) h hout hv hfire

/-! ## Situations of the front end -/

/-- Which instruction EXU may take next, and what is in flight behind it. -/
inductive Phase (r : Regs) (expected : BitVec 15) : Prop
  | running (pending : r.redirectPendingReg = false) (late : r.lateRedirectNow = false)
      (detected : lateRedirectDetected r = false)
      (queue : Running r.pipelineEpoch (flight r) (some expected) (trim r.pc))
  | detected (pending : r.redirectPendingReg = false) (late : r.lateRedirectNow = false)
      (detected : lateRedirectDetected r = true)
      (queue : AllEpoch r.pipelineEpoch (flight r)) (target : redirectTarget r = expected)
  | late (pending : r.redirectPendingReg = false) (late : r.lateRedirectNow = true)
      (detected : lateRedirectDetected r = false)
      (queue : AllEpoch r.pipelineEpoch (flight r)) (target : redirectTarget r = expected)
  | pending (pending : r.redirectPendingReg = true) (late : r.lateRedirectNow = false)
      (detected : lateRedirectDetected r = false)
      (queue : AllEpoch (!r.pipelineEpoch) (flight r)) (target : redirectTarget r = expected)

/-- The continuation after this cycle. -/
def nextExpected (r : Regs) (i : In) (expected : BitVec 15) : BitVec 15 :=
  if exuInFire r i then trim (EXU.nxtPC r.exu (exuIn r i)) else expected

theorem mem_flight_of_exu (hv : r.exuPipe.valid = true) :
    ∃ q, flight r = exuPacket r.exuPipe.bits :: q := by
  refine ⟨iduSlot r ++ ifuSlot r.ifu, ?_⟩
  simp [flight, exuSlot, hv]

theorem Phase.of_pending (h : Phase r expected) (hpend : r.redirectPendingReg = true) :
    r.lateRedirectNow = false ∧ AllEpoch (!r.pipelineEpoch) (flight r) := by
  cases h with
  | pending _ hlate _ queue _ => exact ⟨hlate, queue⟩
  | running hno _ _ _ => exact absurd (hpend.symm.trans hno) (by decide)
  | detected hno _ _ _ _ => exact absurd (hpend.symm.trans hno) (by decide)
  | late hno _ _ _ _ => exact absurd (hpend.symm.trans hno) (by decide)

/-- EXU holds a live instruction only while the queue runs. -/
theorem running_of_valid (h : Phase r expected) (hvalid : exuInValid r = true) :
    r.redirectPendingReg = false ∧ r.lateRedirectNow = false ∧ lateRedirectDetected r = false ∧
      Running r.pipelineEpoch (flight r) (some expected) (trim r.pc) := by
  rcases exuInValid_iff.mp hvalid with ⟨hv, hepoch, hkill⟩
  have hparts : lateRedirectDetected r = false ∧ r.lateRedirectNow = false := by
    simpa [lateRedirectKill] using hkill
  cases h with
  | running hpend hlate hdet queue => exact ⟨hpend, hlate, hdet, queue⟩
  | detected _ _ hdet _ _ => exact absurd (hdet.symm.trans hparts.1) (by decide)
  | late _ hlate _ _ _ => exact absurd (hlate.symm.trans hparts.2) (by decide)
  | pending _ _ _ queue _ =>
    rcases mem_flight_of_exu hv with ⟨q, hq⟩
    have hstale := queue (exuPacket r.exuPipe.bits) (hq ▸ List.mem_cons_self)
    have hstale' : r.exuPipe.bits.epoch = !r.pipelineEpoch := hstale
    simp [hepoch] at hstale'

/-- The live instruction in EXU is the expected one. -/
theorem pc_of_valid (hf : FrontOk prog r) (h : Phase r expected) (hvalid : exuInValid r = true) :
    r.exuPipe.bits.pc = expand expected := by
  rcases exuInValid_iff.mp hvalid with ⟨hv, hepoch, _⟩
  rcases mem_flight_of_exu hv with ⟨q, hq⟩
  have hrun := (running_of_valid h hvalid).2.2.2
  rw [hq] at hrun
  have htrim : trim r.exuPipe.bits.pc = expected :=
    (hrun.take hepoch).1 expected rfl
  rw [← htrim]
  exact (hf.exu hv).pc

/-! ## What an edge does to the control registers -/

theorem redirectTarget_next (hf : FrontOk prog r) (h : ExuOk r) :
    redirectTarget (next r i) =
      if exuInFire r i then trim (EXU.nxtPC r.exu (exuIn r i)) else redirectTarget r := by
  cases hfire : exuInFire r i with
  | false =>
    have hout : exuOutFire r i = false := (exuOutFire_eq h).trans hfire
    simp [redirectTarget, next, hout]
  | true =>
    have hout : exuOutFire r i = true := (exuOutFire_eq h).trans hfire
    have hv := (exuInValid_iff.mp (exuInValid_of_inFire hfire)).1
    have hd : Decoded (exuIn r i).dinst := (hf.exu hv).decoded
    rw [if_pos rfl, ← EXU.updateTarget_eq hd]
    simp only [redirectTarget, next, hout, if_true]
    rfl

theorem trim_pc_next (r : Regs) (i : In) :
    trim (next r i).pc = if ifuPcReady r i then trim (fetchPrediction r).pc else trim r.pc := by
  simp only [next, trim_expand]

/-- Without kills only stale packets disappear. -/
theorem killed_iff (hkill : lateRedirectKill r = false) :
    Killed r = fun p => p.epoch ≠ r.pipelineEpoch := by
  funext p
  simp [Killed, hkill]

/-- While no mailbox is pending, the offered packet continues the queue. -/
theorem running_fetch {q : List (Packet (BitVec 15))} {x : Option (BitVec 15)}
    (hpend : r.redirectPendingReg = false) (h : Running r.pipelineEpoch q x (trim r.pc)) :
    Running r.pipelineEpoch (q ++ if ifuPcReady r i then [fetched r] else []) x
      (trim (next r i).pc) := by
  rw [trim_pc_next]
  cases hready : ifuPcReady r i with
  | false => simpa using h
  | true =>
    have hpc : pcFeedToIFU r = r.pc := by simp [pcFeedToIFU, hpend]
    have hfetched : fetched r =
        ⟨r.pipelineEpoch, trim r.pc, some (trim (fetchPrediction r).pc)⟩ := by
      simp [fetched, hpc]
    rw [if_pos rfl, if_pos rfl, hfetched]
    exact h.push

theorem allEpoch_fetch {q : List (Packet (BitVec 15))} (h : AllEpoch r.pipelineEpoch q) :
    AllEpoch r.pipelineEpoch (q ++ if ifuPcReady r i then [fetched r] else []) := by
  cases ifuPcReady r i with
  | false => simpa using h
  | true => exact h.push rfl

/-! ## One clock edge -/

theorem phase_next_of_no_fire (hf : FrontOk prog r) (he : ExuOk r) (h : Phase r expected)
    (hfire : exuInFire r i = false) : Phase (next r i) expected := by
  have himm := no_redirect_of_no_fire he hfire
  have hdet' := lsu_next_of_no_fire he hfire
  have htarget : redirectTarget (next r i) = redirectTarget r := by
    simp [redirectTarget_next hf he, hfire]
  have hnow' : (next r i).lateRedirectNow = lateRedirectDetected r := rfl
  rcases flight_next (i := i) hf with ⟨q, hmoves, hflight⟩
  simp only [hfire, Bool.false_eq_true, if_false] at hmoves
  cases h with
  | running hpend hlate hdet queue =>
    have hredirect : redirectNow r i = false := by simp [redirectNow, himm, hlate]
    have hepoch : (next r i).pipelineEpoch = r.pipelineEpoch := by simp [next, hredirect]
    rw [killed_iff (by simp [lateRedirectKill, hdet, hlate])] at hmoves
    refine Phase.running ?_ (hnow'.trans hdet) hdet' ?_
    · simp [next, hredirect, redirectPendingFire, hpend]
    · rw [hepoch, hflight]
      exact running_fetch hpend (queue.moves hmoves)
  | detected hpend hlate hdet queue target =>
    have hredirect : redirectNow r i = false := by simp [redirectNow, himm, hlate]
    have hepoch : (next r i).pipelineEpoch = r.pipelineEpoch := by simp [next, hredirect]
    refine Phase.late ?_ (hnow'.trans hdet) hdet' ?_ (htarget.trans target)
    · simp [next, hredirect, redirectPendingFire, hpend]
    · rw [hepoch, hflight]
      exact allEpoch_fetch (hmoves.allEpoch queue)
  | late hpend hlate hdet queue target =>
    have hredirect : redirectNow r i = true := by simp [redirectNow, hlate]
    have hepoch : (next r i).pipelineEpoch = !r.pipelineEpoch := by simp [next, hredirect]
    refine Phase.pending ?_ (hnow'.trans hdet) hdet' ?_ (htarget.trans target)
    · simp [next, hredirect]
    · rw [hepoch, hflight, Bool.not_not]
      exact allEpoch_fetch (hmoves.allEpoch queue)
  | pending hpend hlate hdet queue target =>
    have hredirect : redirectNow r i = false := by simp [redirectNow, himm, hlate]
    have hepoch : (next r i).pipelineEpoch = r.pipelineEpoch := by simp [next, hredirect]
    have hstale := hmoves.allEpoch queue
    cases hready : ifuPcReady r i with
    | false =>
      refine Phase.pending ?_ (hnow'.trans hdet) hdet' ?_ (htarget.trans target)
      · simp [next, hredirect, redirectPendingFire, hready, hpend]
      · rw [hepoch, hflight, hready]
        simpa using hstale
    | true =>
      -- the mailbox is consumed: its target starts the new epoch
      have hfeed : pcFeedToIFU r = expand expected := by simp [pcFeedToIFU, hpend, target]
      have hfetched : fetched r =
          ⟨r.pipelineEpoch, expected, some (trim (fetchPrediction r).pc)⟩ := by
        simp [fetched, hfeed, trim_expand]
      refine Phase.running ?_ (hnow'.trans hdet) hdet' ?_
      · simp [next, hredirect, redirectPendingFire, hready, hpend]
      · rw [hepoch, hflight, trim_pc_next, hready, if_pos rfl, if_pos rfl, hfetched]
        exact Running.restart hstale

theorem phase_next_of_fire (hf : FrontOk prog r) (he : ExuOk r) (h : Phase r expected)
    (hfire : exuInFire r i = true) :
    Phase (next r i) (trim (EXU.nxtPC r.exu (exuIn r i))) := by
  rcases exuInValid_iff.mp (exuInValid_of_inFire hfire) with ⟨hv, hepoch, hkill⟩
  rcases running_of_valid h (exuInValid_of_inFire hfire) with ⟨hpend, hlate, hdet, hrun⟩
  rcases mem_flight_of_exu hv with ⟨q₀, hq₀⟩
  have hd : Decoded (exuIn r i).dinst := (hf.exu hv).decoded
  have hres : EXU.exuResultValid r.exu (exuIn r i) = true :=
    EXU.Occupied.exuResultValid_of_inFire (i := exuIn r i) he hd hfire
  have hout : exuOutValid r i = true := (exuOutValid_eq he).trans hfire
  have htarget : redirectTarget (next r i) = trim (EXU.nxtPC r.exu (exuIn r i)) := by
    simp [redirectTarget_next hf he, hfire]
  have hnow' : (next r i).lateRedirectNow = false := hdet
  -- behind the taken packet everything is live
  rw [hq₀] at hrun
  rcases hrun.take hepoch with ⟨_, hall, hrest⟩
  rcases flight_next (i := i) hf with ⟨q, hmoves, hflight⟩
  simp only [hfire, if_true, hq₀, List.tail_cons] at hmoves
  have hall' : AllEpoch r.pipelineEpoch (flight (next r i)) := by
    rw [hflight]
    exact allEpoch_fetch (hmoves.allEpoch hall)
  have hdet' : lateRedirectDetected (next r i) =
      (EXU.registeredBranchResolve (exuIn r i) &&
        (EXU.takeBranch r.exu (exuIn r i) ^^ (exuIn r i).dinst.predTake)) := by
    simp [lateRedirectDetected, lsuInFire, lsuInReady, Pipe.allowIn, lsuPipe_next, hout, EXU.outBits,
      hres]
  cases himm : EXU.immediatePredWrong r.exu (exuIn r i) with
  | true =>
    have hredirect : redirectNow r i = true := by
      simp [redirectNow, immediateRedirectNow, hout, himm]
    have hepoch' : (next r i).pipelineEpoch = !r.pipelineEpoch := by simp [next, hredirect]
    refine Phase.pending ?_ hnow' ?_ ?_ htarget
    · simp [next, hredirect]
    · rw [hdet', EXU.not_registered_of_immediate hd himm, Bool.false_and]
    · rw [hepoch', Bool.not_not]
      exact hall'
  | false =>
    have hredirect : redirectNow r i = false := by
      simp [redirectNow, immediateRedirectNow, himm, hlate]
    have hepoch' : (next r i).pipelineEpoch = r.pipelineEpoch := by simp [next, hredirect]
    have hpend' : (next r i).redirectPendingReg = false := by
      simp [next, hredirect, redirectPendingFire, hpend]
    cases hmis : lateRedirectDetected (next r i) with
    | true =>
      refine Phase.detected hpend' hnow' hmis ?_ htarget
      rw [hepoch']
      exact hall'
    | false =>
      have hresolved : EXU.registeredBranchResolve (exuIn r i) = true →
          EXU.takeBranch r.exu (exuIn r i) = (exuIn r i).dinst.predTake := by
        intro hreg
        rw [hdet', hreg, Bool.true_and] at hmis
        simpa using hmis
      have hpred := EXU.predictedNext_eq (i := exuIn r i) he hd hfire himm hresolved
      have hclaim : (exuPacket r.exuPipe.bits).next =
          some (trim (EXU.nxtPC r.exu (exuIn r i))) := by
        have hw : r.exuPipe.bits.info.notBranchPredWrong = false := hpred.1
        simp only [exuPacket, hw, Bool.false_eq_true, if_false]
        exact congrArg some hpred.2
      rw [hclaim] at hrest
      rw [killed_iff hkill] at hmoves
      refine Phase.running hpend' hnow' hmis ?_
      rw [hepoch', hflight]
      exact running_fetch hpend (hrest.moves hmoves)

/-- Each situation leads to the next one with the right continuation. -/
theorem phase_next (hf : FrontOk prog r) (he : ExuOk r) (h : Phase r expected) :
    Phase (next r i) (nextExpected r i expected) := by
  cases hfire : exuInFire r i with
  | true => simpa [nextExpected, hfire] using phase_next_of_fire hf he h hfire
  | false => simpa [nextExpected, hfire] using phase_next_of_no_fire hf he h hfire

/-- Nothing disturbs a pending mailbox. -/
theorem mailbox_kept (hf : FrontOk prog r) (he : ExuOk r) (h : Phase r expected)
    (hpend : r.redirectPendingReg = true) :
    redirectNow r i = false ∧ redirectTarget (next r i) = redirectTarget r := by
  have hfire : exuInFire r i = false := Bool.eq_false_iff.mpr fun hfire => by
    rw [(running_of_valid h (exuInValid_of_inFire hfire)).1] at hpend
    exact Bool.false_ne_true hpend
  have hlate := (h.of_pending hpend).1
  refine ⟨?_, ?_⟩
  · simp [redirectNow, no_redirect_of_no_fire he hfire, hlate]
  · simp [redirectTarget_next hf he, hfire]

/-! ## The one-bit epoch and the number of redirects -/

/-- An unbounded epoch: how many redirects there were, and how many there had been when
the instruction in each stage was fetched. -/
structure Generation where
  redirects : ℕ
  ifu : ℕ
  idu : ℕ
  exu : ℕ

def Generation.watch (r : Regs) (i : In) (g : Generation) : Generation where
  redirects := if redirectNow r i then g.redirects + 1 else g.redirects
  ifu := if ifuPcReady r i then g.redirects else g.ifu
  idu := if r.iduPipe.allowIn (iduPipeReady r i) then g.ifu else g.idu
  exu := if r.exuPipe.allowIn (exuPipeReady r i) then g.idu else g.exu

/-- The epoch bit of an instruction says whether it was fetched after the last redirect. -/
structure Faithful (current epoch : Bool) (redirects fetchedAt : ℕ) : Prop where
  past : fetchedAt ≤ redirects
  iff : epoch = current ↔ fetchedAt = redirects

structure GenerationOk (r : Regs) (g : Generation) : Prop where
  ifu : ∀ p ∈ ifuSlot r.ifu, Faithful r.pipelineEpoch p.epoch g.redirects g.ifu
  idu : r.iduPipe.valid = true →
    Faithful r.pipelineEpoch r.iduPipe.bits.epoch g.redirects g.idu
  exu : r.exuPipe.valid = true →
    Faithful r.pipelineEpoch r.exuPipe.bits.epoch g.redirects g.exu

/-- After a redirect everything in flight carries the old epoch. -/
theorem allEpoch_of_redirect (hf : FrontOk prog r) (he : ExuOk r) (h : Phase r expected)
    (hredirect : redirectNow r i = true) : AllEpoch r.pipelineEpoch (flight (next r i)) := by
  have hpend : (next r i).redirectPendingReg = true := by simp [next, hredirect]
  have hepoch : (next r i).pipelineEpoch = !r.pipelineEpoch := by simp [next, hredirect]
  simpa [hepoch] using ((phase_next (i := i) hf he h).of_pending hpend).2

/-- A faithful epoch bit stays faithful when the instruction moves through this cycle. -/
theorem Faithful.advance {g : Generation} {epoch : Bool} {fetchedAt : ℕ}
    (h : Faithful r.pipelineEpoch epoch g.redirects fetchedAt)
    (hold : redirectNow r i = true → epoch = r.pipelineEpoch) :
    Faithful (next r i).pipelineEpoch epoch (g.watch r i).redirects fetchedAt := by
  cases hredirect : redirectNow r i with
  | false => simpa [next, Generation.watch, hredirect] using h
  | true =>
    have hsame := hold hredirect
    have hat := h.iff.mp hsame
    simp only [next, Generation.watch, hredirect, if_true]
    refine ⟨by omega, ?_⟩
    rw [hsame, hat]
    simp

theorem generationOk_next {g : Generation} (hf : FrontOk prog r) (he : ExuOk r)
    (h : Phase r expected) (hg : GenerationOk r g) : GenerationOk (next r i) (g.watch r i) := by
  -- two generations are never in flight at once, so one epoch bit tells them apart
  have hall := allEpoch_of_redirect (i := i) hf he h
  refine ⟨?_, ?_, ?_⟩
  · intro p hp
    have hold : redirectNow r i = true → p.epoch = r.pipelineEpoch := fun hredirect =>
      hall hredirect p (by simp [flight, hp])
    rw [ifuSlot_of_next] at hp
    cases hready : ifuPcReady r i with
    | false =>
      have hkept : p ∈ ifuSlot r.ifu := by
        simp only [hready, Bool.false_eq_true, if_false, List.append_nil] at hp
        split at hp
        · cases hp
        · exact hp
      have hgen : (g.watch r i).ifu = g.ifu := by simp [Generation.watch, hready]
      rw [hgen]
      exact (hg.ifu p hkept).advance hold
    | true =>
      have hfetched : p = fetched r := by
        rw [ifuSlot_empty_of_ready hready, hready] at hp
        simpa using hp
      have hgen : (g.watch r i).ifu = g.redirects := by simp [Generation.watch, hready]
      rw [hgen, hfetched]
      exact Faithful.advance ⟨Nat.le_refl _, by simp [fetched]⟩ (fun _ => rfl)
  · intro hv
    have hold : redirectNow r i = true →
        (next r i).iduPipe.bits.epoch = r.pipelineEpoch := fun hredirect =>
      hall hredirect (iduPacket (next r i).iduPipe.bits) (by simp [flight, iduSlot, hv])
    refine Faithful.advance ?_ hold
    cases ha : r.iduPipe.allowIn (iduPipeReady r i) with
    | false =>
      simp only [next, Pipe.next, ha, Bool.false_eq_true, if_false, Generation.watch] at hv ⊢
      exact hg.idu hv
    | true =>
      simp only [next, Pipe.next, ha, if_true, Generation.watch] at hv ⊢
      exact hg.ifu (iduPacket (IFU.outBits r.ifu (ifuIn r i)))
        (ifuSlot_out hv ▸ List.mem_cons_self)
  · intro hv
    have hold : redirectNow r i = true →
        (next r i).exuPipe.bits.epoch = r.pipelineEpoch := fun hredirect =>
      hall hredirect (exuPacket (next r i).exuPipe.bits) (by simp [flight, exuSlot, hv])
    refine Faithful.advance ?_ hold
    cases ha : r.exuPipe.allowIn (exuPipeReady r i) with
    | false =>
      simp only [next, Pipe.next, ha, Bool.false_eq_true, if_false, Generation.watch] at hv ⊢
      exact hg.exu hv
    | true =>
      simp only [next, Pipe.next, ha, if_true, Generation.watch] at hv ⊢
      have hidu : r.iduPipe.valid = true := by
        simp only [IDU.outValid, iduIn, Bool.and_eq_true] at hv
        exact hv.1.1
      exact hg.idu hidu

end CPUCore
end Core
end Jyd
