import Jyd.Hdl.LeadsTo
import Jyd.Core.FetchProgress
import Jyd.Soc.ControlFlow

/-!
# FetchLiveness — EXU is served again and again

When the instruction memory takes requests and answers them again and again, every
state of the SoC leads to one in which EXU holds an instruction that passed the
filters.
-/

namespace Jyd
namespace Soc
namespace JYDSoC

open Hdl Jyd.Core

variable {c : Config} {s : Regs} {i : In}

/-- The front end is in order. -/
def Sound (c : Config) (s : Regs) : Prop := ∃ expected, FrontInv c s expected

theorem Sound.next (h : Sound c s) : Sound c (next c i s) := by
  rcases h with ⟨expected, hf⟩
  exact ⟨_, hf.next⟩

theorem Sound.exu (h : Sound c s) : CPUCore.ExuOk s.core := by
  rcases h with ⟨_, hf⟩
  exact hf.exu

/-- EXU waits with an empty IDU; `live` tells whether IFU fetches the next instruction. -/
structure Fetching (c : Config) (live : Bool) (s : Regs) : Prop where
  sound : Sound c s
  waiting : CPUCore.Waiting s.core
  idu : CPUCore.iduLive s.core = false
  ifu : CPUCore.ifuLive s.core = live

/-- IFU has handed its instruction on and fetches a live one. -/
structure Handed (c : Config) (live : Bool) (s : Regs) : Prop where
  sound : Sound c s
  waiting : CPUCore.Waiting s.core
  idu : CPUCore.iduLive s.core = live
  ifu : CPUCore.ifuLive s.core = true

def HoldsInst (s : Regs) : Prop := CPUCore.exuInValid s.core = true

theorem Fetching.waiting_next {live : Bool} (h : Fetching c live s) :
    CPUCore.Waiting (next c i s).core :=
  CPUCore.waiting_next h.sound.exu h.waiting (CPUCore.outValid_of_not_live h.idu)

theorem Fetching.handed {live : Bool} (h : Fetching c live s)
    (hready : CPUCore.ifuPcReady s.core (coreIn c i s) = true) : Handed c live (JYDSoC.next c i s) := by
  have hepoch := CPUCore.epoch_of_waiting (i := coreIn c i s) h.sound.exu h.waiting
  rcases CPUCore.live_next h.idu hepoch with ⟨hidu, hifu⟩
  rw [hready] at hidu hifu
  exact ⟨h.sound.next, h.waiting_next, hidu.trans h.ifu, hifu⟩

theorem Fetching.stay {live : Bool} (h : Fetching c live s)
    (hready : CPUCore.ifuPcReady s.core (coreIn c i s) = false) :
    Fetching c live (JYDSoC.next c i s) := by
  have hepoch := CPUCore.epoch_of_waiting (i := coreIn c i s) h.sound.exu h.waiting
  rcases CPUCore.live_next h.idu hepoch with ⟨hidu, hifu⟩
  rw [hready] at hidu hifu
  exact ⟨h.sound.next, h.waiting_next, hidu, hifu.trans h.ifu⟩

theorem Sound.outstanding (h : Sound c s) (hs : s.core.ifu.state = .waitResp) :
    (coreIn c i s).iromResp.valid = i.irom.answer := by
  rcases h with ⟨_, hf⟩
  have hrom := hf.rom
  cases hp : s.irom with
  | none => simp [RomOk, hp, hs] at hrom
  | some addr => simp [coreIn, RomPort.resp, hp]

/-! ## Along a run -/

section Run

variable {P : Regs → Prop} {R : Run (⟨P, next c⟩ : Machine In Regs)}

/-- The instruction memory never stops serving. -/
structure RomServes (R : Run (⟨P, next c⟩ : Machine In Regs)) : Prop where
  ready : R.Recurs (fun i => i.irom.ready = true)
  answer : R.Recurs (fun i => i.irom.answer = true)

variable (hrom : RomServes R)

include hrom

theorem fetching_handed (live : Bool) : R.LeadsTo (Fetching c live) (Handed c live) := by
  -- the answer comes
  have hresp : R.LeadsTo (fun s => Fetching c live s ∧ s.core.ifu.state = .waitResp)
      (Handed c live) := by
    refine Run.LeadsTo.of_event hrom.answer ?_ ?_
    · rintro i s ⟨h, hs⟩
      have hvalid := h.sound.outstanding (i := i) hs
      cases ha : i.irom.answer with
      | true => exact Or.inr (h.handed (CPUCore.pcReady_of_not_live h.idu
          (Or.inr (Or.inr ⟨hs, hvalid.trans ha⟩))))
      | false =>
        have hstep := CPUCore.ifu_of_waitResp hs (hvalid.trans ha)
        exact Or.inl ⟨h.stay hstep.1, hstep.2⟩
    · rintro i s ⟨h, hs⟩ ha
      exact h.handed (CPUCore.pcReady_of_not_live h.idu
        (Or.inr (Or.inr ⟨hs, (h.sound.outstanding hs).trans ha⟩)))
  -- the request is taken
  have hreq : R.LeadsTo (fun s => Fetching c live s ∧ s.core.ifu.state = .waitReq)
      (fun s => Fetching c live s ∧ s.core.ifu.state = .waitResp) := by
    refine Run.LeadsTo.of_event hrom.ready ?_ ?_
    · rintro i s ⟨h, hs⟩
      have hstep := CPUCore.ifu_of_waitReq (i := coreIn c i s) hs
      cases hr : i.irom.ready with
      | true =>
        have hr' : (coreIn c i s).iromReqReady = true := hr
        exact Or.inr ⟨h.stay hstep.1, hstep.2.trans (by simp [hr'])⟩
      | false =>
        have hr' : (coreIn c i s).iromReqReady = false := hr
        exact Or.inl ⟨h.stay hstep.1, hstep.2.trans (by simp [hr'])⟩
    · rintro i s ⟨h, hs⟩ hr
      have hr' : (coreIn c i s).iromReqReady = true := hr
      have hstep := CPUCore.ifu_of_waitReq (i := coreIn c i s) hs
      exact ⟨h.stay hstep.1, hstep.2.trans (by simp [hr'])⟩
  have hnow : R.LeadsTo
      (fun s => Fetching c live s ∧ (s.core.ifu.state = .idle ∨ s.core.ifu.state = .waitOut))
      (Handed c live) := by
    refine Run.LeadsTo.of_step ?_
    rintro i s ⟨h, hs⟩
    refine h.handed (CPUCore.pcReady_of_not_live h.idu ?_)
    rcases hs with hs | hs
    · exact Or.inl hs
    · exact Or.inr (Or.inl hs)
  intro t h
  cases hs : (R.state t).core.ifu.state with
  | idle => exact hnow t ⟨h, Or.inl hs⟩
  | waitReq => exact (hreq.trans hresp) t ⟨h, hs⟩
  | waitResp => exact hresp t ⟨h, hs⟩
  | waitOut => exact hnow t ⟨h, Or.inr hs⟩

omit hrom in
/-- A live instruction in IDU waits at most for LSU to drain. -/
theorem decoded_holdsInst :
    R.LeadsTo (fun s => Sound c s ∧ CPUCore.Waiting s.core ∧ CPUCore.iduLive s.core = true)
      HoldsInst := by
  have hdrained : R.LeadsTo
      (fun s => Sound c s ∧ CPUCore.Waiting s.core ∧ CPUCore.iduLive s.core = true ∧
        s.core.lsuPipe.valid = false) HoldsInst := by
    refine Run.LeadsTo.of_step ?_
    rintro i s ⟨hsound, hw, hl, hlsu⟩
    exact (CPUCore.exuInValid_of_waiting hsound.exu hw).trans
      (CPUCore.outValid_of_drained hw hl hlsu)
  refine Run.LeadsTo.or_trans ?_ hdrained
  refine Run.LeadsTo.of_step ?_
  rintro i s ⟨hsound, hw, hl⟩
  cases hv : IDU.outValid (CPUCore.iduIn s.core (coreIn c i s)) with
  | true => exact Or.inr ((CPUCore.exuInValid_of_waiting hsound.exu hw).trans hv)
  | false =>
    exact Or.inl ⟨hsound.next, CPUCore.waiting_next hsound.exu hw hv,
      CPUCore.iduLive_of_stall hsound.exu hw hl hv, CPUCore.lsu_of_waiting hsound.exu hw⟩

theorem waiting_holdsInst :
    R.LeadsTo (fun s => Sound c s ∧ CPUCore.Waiting s.core) HoldsInst := by
  have hidu := decoded_holdsInst (R := R)
  have hlive : R.LeadsTo (Fetching c true) HoldsInst :=
    (fetching_handed hrom true).trans
      ((Run.LeadsTo.of_imp fun _ h => ⟨h.sound, h.waiting, h.idu⟩).trans hidu)
  -- a stale fetch is handed on first; the one behind it is live
  have hstale : R.LeadsTo (Fetching c false) HoldsInst :=
    (fetching_handed hrom false).trans
      ((Run.LeadsTo.of_imp fun _ h => ⟨h.sound, h.waiting, h.idu, h.ifu⟩).trans hlive)
  rintro t ⟨hsound, hw⟩
  cases hl : CPUCore.iduLive (R.state t).core with
  | true => exact hidu t ⟨hsound, hw, hl⟩
  | false =>
    cases hf : CPUCore.ifuLive (R.state t).core with
    | true => exact hlive t ⟨hsound, hw, hl, hf⟩
    | false => exact hstale t ⟨hsound, hw, hl, hf⟩

/-- EXU is always served again. -/
theorem sound_holdsInst : R.LeadsTo (Sound c) HoldsInst := by
  have hwait := waiting_holdsInst hrom
  have hnotLate : ∀ s, Sound c s → s.core.lateRedirectNow = true →
      CPUCore.lateRedirectDetected s.core = false := by
    rintro s ⟨_, hf⟩ hnow
    cases hf.phase with
    | running _ hlate _ _ => exact absurd (hlate.symm.trans hnow) (by decide)
    | detected _ hlate _ _ _ => exact absurd (hlate.symm.trans hnow) (by decide)
    | late _ _ hdet _ _ => exact hdet
    | pending _ hlate _ _ _ => exact absurd (hlate.symm.trans hnow) (by decide)
  -- a late redirect flips the epoch and leaves EXU waiting
  have hlate : R.LeadsTo (fun s => Sound c s ∧ s.core.lateRedirectNow = true) HoldsInst := by
    refine Run.LeadsTo.or_trans ?_ hwait
    refine Run.LeadsTo.of_step ?_
    rintro i s ⟨hsound, hnow⟩
    have hinv : CPUCore.exuInValid s.core = false := by
      simp [CPUCore.exuInValid, CPUCore.lateRedirectKill, hnow]
    have hdet : CPUCore.lateRedirectDetected (next c i s).core = false :=
      CPUCore.lsu_next_of_no_fire hsound.exu (CPUCore.no_fire_of_invalid hinv)
    cases hv : CPUCore.exuInValid (next c i s).core with
    | true => exact Or.inr hv
    | false => exact Or.inl ⟨hsound.next, hv, hnotLate s hsound hnow, hdet⟩
  have hdetected : R.LeadsTo
      (fun s => Sound c s ∧ CPUCore.lateRedirectDetected s.core = true) HoldsInst := by
    refine Run.LeadsTo.trans (Run.LeadsTo.of_step ?_) hlate
    rintro i s ⟨hsound, hdet⟩
    exact ⟨hsound.next, hdet⟩
  intro t hsound
  cases hv : CPUCore.exuInValid (R.state t).core with
  | true => exact ⟨t, Nat.le_refl t, hv⟩
  | false =>
    cases hnow : (R.state t).core.lateRedirectNow with
    | true => exact hlate t ⟨hsound, hnow⟩
    | false =>
      cases hdet : CPUCore.lateRedirectDetected (R.state t).core with
      | true => exact hdetected t ⟨hsound, hdet⟩
      | false => exact hwait t ⟨hsound, hv, hnow, hdet⟩

end Run

end JYDSoC
end Soc
end Jyd
