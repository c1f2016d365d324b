import Jyd.Core.ExuRequests
import Jyd.Soc.ControlFlow
import Jyd.Soc.DataBus

/-!
# Responses — every response finds its requester

Responses carry no tag.  The pipelines of the bridge say which of the last two
cycles made a request, and the states of the requesters say the same, so a
consumed response always answers the latest request of the consuming instruction.
-/

namespace Jyd
namespace Soc
namespace JYDSoC

open Hdl Jyd.Core

variable {c : Config} {s : Regs} {i : In} {expected : BitVec 15}

/-- EXU completes its instruction in this cycle. -/
def completes (c : Config) (i : In) (s : Regs) : Bool := CPUCore.exuInFire s.core (coreIn c i s)

/-- WBU holds a load or a store, which consumes the response of this cycle. -/
def memOpInWBU (s : Regs) : Bool := s.core.wbuPipe.valid && s.core.wbuPipe.bits.isMemOp

/-! ## Requests and the response pipeline -/

theorem dramReqFire_eq : CPUCore.dramReqFire s.core (coreIn c i s) = (busReq c i s).valid := by
  simp [CPUCore.dramReqFire, EXU.memReqFire, CPUCore.exuIn, coreIn, busReq, CPUCore.dramReqValid]

theorem respValidPipe0_next : (next c i s).bus.perip.respValidPipe0 = (busReq c i s).valid := rfl

theorem respValidPipe1_next :
    (next c i s).bus.perip.respValidPipe1 = s.bus.perip.respValidPipe0 := rfl

/-- The requests of the last two cycles, as the requesters know them. -/
structure PortInv (s : Regs) : Prop where
  inStep : DataBus.InStep s.bus
  asks : EXU.asks s.core.exu = true → s.bus.perip.respValidPipe0 = false
  waits : EXU.waits s.core.exu = true →
    s.bus.perip.respValidPipe0 = !s.bus.perip.respValidPipe1
  lsu : s.core.lsuPipe.valid = true → (s.core.lsuPipe.bits.isLoad || s.core.lsuPipe.bits.isStore) = true →
    s.bus.perip.respValidPipe0 = true
  wbu : memOpInWBU s = true → s.bus.perip.respValidPipe1 = true

theorem FrontInv.decoded (h : FrontInv c s expected) :
    CPUCore.exuInValid s.core = true → Decoded s.core.exuPipe.bits :=
  fun hv => (h.front.exu (CPUCore.exuInValid_iff.mp hv).1).decoded

/-- A load or store completes with its request. -/
theorem request_of_completes (hfire : completes c i s = true)
    (hmem : EXU.needMemReq s.core.exuPipe.bits = true) : (busReq c i s).valid = true := by
  have hv : CPUCore.exuInValid s.core = true := CPUCore.exuInValid_of_inFire hfire
  have hout : CPUCore.exuOutReady s.core = true := CPUCore.exuOutReady_eq s.core
  simp [busReq, CPUCore.dramReqValid, EXU.memReqValid_eq, CPUCore.exuIn, hv, hout, hmem]

/-- No controller is busy while EXU holds a load or store. -/
theorem not_busy_of_needMemReq (hf : FrontInv c s expected)
    (hmem : EXU.needMemReq s.core.exuPipe.bits = true) : EXU.busy s.core.exu = false :=
  Bool.eq_false_iff.mpr fun hb => by
    have hno := (EXU.Occupied.of_busy hf.exu hf.decoded hb).2
    exact Bool.false_ne_true (hno.symm.trans hmem)

theorem valid_of_request (hf : FrontInv c s expected) (hv : (busReq c i s).valid = true) :
    CPUCore.exuInValid s.core = true := by
  simp only [busReq, CPUCore.dramReqValid, EXU.memReqValid_eq, CPUCore.exuIn, Bool.or_eq_true,
    Bool.and_eq_true] at hv
  rcases hv with ha | hk
  · exact (EXU.Occupied.of_busy hf.exu hf.decoded (EXU.busy_of_asks ha)).1
  · exact hk.1.2

theorem not_accelerator_of_needMemReq (hf : FrontInv c s expected)
    (hv : CPUCore.exuInValid s.core = true) (hmem : EXU.needMemReq s.core.exuPipe.bits = true) :
    EXU.isNumericDfa s.core.exuPipe.bits = false ∧ EXU.isListReverse s.core.exuPipe.bits = false ∧
      EXU.isXmsum s.core.exuPipe.bits = false :=
  EXU.not_accelerator (hf.decoded hv) (Bool.eq_false_iff.mpr fun ha =>
    Bool.false_ne_true ((EXU.not_needMemReq_of_arithmetic ha).symm.trans hmem))

/-- The request of a load or store is addressed by its operands alone. -/
theorem request_of_needMemReq (hf : FrontInv c s expected)
    (hv : CPUCore.exuInValid s.core = true) (hmem : EXU.needMemReq s.core.exuPipe.bits = true) :
    (busReq c i s).req.addr = EXU.reg1AddImm s.core.exuPipe.bits ∧
      (busReq c i s).req.wen = EXU.isTypStore s.core.exuPipe.bits := by
  rcases not_accelerator_of_needMemReq hf hv hmem with ⟨hn, hl, hx⟩
  simp [busReq, CPUCore.dramReq, EXU.memReq, CPUCore.exuIn, EXU.isNumericDfaStep, hn, hl, hx]

theorem PortInv.next (h : PortInv s) (hf : FrontInv c s expected) : PortInv (next c i s) where
  inStep := h.inStep.next
  asks := by
    intro ha
    rw [respValidPipe0_next, ← dramReqFire_eq]
    cases hv : CPUCore.exuInValid s.core with
    | true =>
      exact EXU.Occupied.no_fire_of_asks_next (i := CPUCore.exuIn s.core (coreIn c i s)) hf.exu
        hf.decoded hv ha
    | false =>
      have hvac := EXU.Occupied.vacant_next_of_invalid
        (i := CPUCore.exuIn s.core (coreIn c i s)) hf.exu hv
      exact absurd (EXU.busy_of_asks ha) (by simp [JYDSoC.next, CPUCore.next, hvac.not_busy])
  waits := by
    intro hw
    rw [respValidPipe0_next, respValidPipe1_next]
    -- a controller waits since its request, or has waited before without an answer
    rcases EXU.waits_next hw with ⟨ha, hfire⟩ | ⟨hw', hno⟩
    · have hfire' : CPUCore.dramReqFire s.core (coreIn c i s) = true := hfire
      rw [← dramReqFire_eq, hfire', h.asks ha]
      rfl
    · have hsilent : (busReq c i s).valid = false :=
        EXU.Occupied.memReqValid_of_waits (i := CPUCore.exuIn s.core (coreIn c i s)) hf.exu
          hf.decoded hw'
      have hresp : s.bus.perip.respValidPipe1 = false := h.inStep.resp_valid ▸ hno
      rw [hsilent, h.waits hw', hresp]
      rfl
  lsu := by
    intro hv hmem
    have hpipe := CPUCore.lsuPipe_next s.core (coreIn c i s)
    have hcore : (JYDSoC.next c i s).core = CPUCore.next s.core (coreIn c i s) := rfl
    rw [hcore, hpipe] at hv hmem
    -- a memory instruction moves to LSU in the cycle of its request
    exact request_of_completes ((CPUCore.exuOutValid_eq hf.exu).symm.trans hv) hmem
  wbu := by
    intro hv
    have hpipe := CPUCore.wbuPipe_next s.core (coreIn c i s)
    have hcore : (JYDSoC.next c i s).core = CPUCore.next s.core (coreIn c i s) := rfl
    rw [memOpInWBU, hcore, hpipe] at hv
    simp only [LSU.outBits, Bool.and_eq_true, Bool.or_eq_true] at hv
    rw [respValidPipe1_next]
    refine h.lsu hv.1 ?_
    rcases hv.2 with hk | hk <;> simp [hk.1]

theorem portInv_of_reset (h : Reset s) : PortInv s := by
  have hc := h.core
  have hbusy : EXU.busy s.core.exu = false := by
    simp [EXU.busy, hc.exu.listReverseState, hc.exu.xmsumState, hc.exu.xdfaWordState]
  refine ⟨DataBus.inStep_of_reset h.bus, ?_, ?_, ?_, ?_⟩
  · exact fun ha => absurd (EXU.busy_of_asks ha) (by simp [hbusy])
  · exact fun hw => absurd (EXU.busy_of_waits hw) (by simp [hbusy])
  · simp [hc.lsuPipe]
  · simp [memOpInWBU, hc.wbuPipe]

/-! ## Along a run -/

section Run

variable (R : Run (machine c))

theorem portInv (t : ℕ) : PortInv (R.state t) := by
  induction t with
  | zero => exact portInv_of_reset R.init
  | succ t ih =>
    rw [R.step t]
    exact ih.next (frontInv R t)

/-- The request of cycle `t`. -/
def requestAt (t : ℕ) : BusReq := busReq c (R.input t) (R.state t)

def respAt (t : ℕ) : Valid Word := DataBus.resp (R.state t).bus

def completesAt (t : ℕ) : Bool := completes c (R.input t) (R.state t)

/-- EXU holds the same instruction in cycles `t` and `k`. -/
def HeldAt (t k : ℕ) : Prop :=
  CPUCore.exuInValid (R.state k).core = true ∧
    (R.state k).core.exuPipe.bits = (R.state t).core.exuPipe.bits

theorem respAt_valid (t : ℕ) : (respAt R (t + 2)).valid = (requestAt R t).valid := by
  rw [respAt, (portInv R (t + 2)).inStep.resp_valid, R.step (t + 1), R.step t]
  rfl

theorem respAt_bits {t : ℕ} (hv : (requestAt R t).valid = true)
    (hread : (requestAt R t).req.wen = false) :
    (respAt R (t + 2)).bits =
      DataBus.answer c.dramSizeInByte (R.state t).bus (requestAt R t).req.addr
        (R.input t).uartCh := by
  have hbits : (respAt R (t + 2)).bits = DataBus.due (R.state (t + 1)).bus := by
    rw [respAt, R.step (t + 1)]
    exact DataBus.resp_next_bits
  rw [hbits, R.step t]
  exact DataBus.due_next hv hread

/-- No response is due in the first two cycles. -/
theorem two_le_of_resp {t : ℕ} (h : (R.state t).bus.perip.respValidPipe1 = true) :
    ∃ u, t = u + 2 := by
  match t with
  | 0 => exact absurd h (by simp [R.init.bus.respValidPipe1])
  | 1 =>
    rw [R.step 0] at h
    have h' : (R.state 0).bus.perip.respValidPipe0 = true := h
    exact absurd h' (by simp [R.init.bus.respValidPipe0])
  | u + 2 => exact ⟨u, rfl⟩

/-- An instruction in EXU stays there until it completes. -/
theorem held_until {t : ℕ} (hv : CPUCore.exuInValid (R.state t).core = true) :
    ∀ n, (∀ k, t ≤ k → k < t + n → completesAt R k = false) → HeldAt R t (t + n) := by
  intro n
  induction n with
  | zero => exact fun _ => ⟨hv, rfl⟩
  | succ n ih =>
    intro hno
    have hbefore := ih (fun k hk hlt => hno k hk (by omega))
    have hstays := CPUCore.exu_stays (i := coreIn c (R.input (t + n)) (R.state (t + n)))
      (frontInv R (t + n)).exu hbefore.1 (hno (t + n) (by omega) (by omega))
    have hstep : (R.state (t + (n + 1))).core =
        CPUCore.next (R.state (t + n)).core (coreIn c (R.input (t + n)) (R.state (t + n))) :=
      congrArg Regs.core (R.step (t + n))
    rw [HeldAt, hstep]
    exact ⟨hstays.1, hstays.2.trans hbefore.2⟩

/-- While an instruction stays in EXU no redirect is taken. -/
theorem no_redirect_while_held {t : ℕ} (hv : CPUCore.exuInValid (R.state t).core = true)
    (hno : completesAt R t = false) :
    CPUCore.redirectNow (R.state t).core (coreIn c (R.input t) (R.state t)) = false := by
  have hkill := (CPUCore.exuInValid_iff.mp hv).2.2
  have hlate : (R.state t).core.lateRedirectNow = false := by
    simp only [CPUCore.lateRedirectKill, Bool.or_eq_false_iff] at hkill
    exact hkill.2
  rw [CPUCore.redirectNow, CPUCore.no_redirect_of_no_fire (frontInv R t).exu hno, hlate]
  rfl

/-- Cycle `u` made the latest request of the instruction that EXU holds up to cycle `t`. -/
structure OwnRequest (u t : ℕ) : Prop where
  issued : (requestAt R u).valid = true
  held : ∀ k, u ≤ k → k ≤ t → HeldAt R u k
  running : ∀ k, u ≤ k → k < t → completesAt R k = false
  latest : ∀ k, u < k → k ≤ t → (requestAt R k).valid = false

/-- A busy controller belongs to the instruction in EXU. -/
theorem valid_of_busy {t : ℕ} (h : EXU.busy (R.state t).core.exu = true) :
    CPUCore.exuInValid (R.state t).core = true :=
  (EXU.Occupied.of_busy (frontInv R t).exu (frontInv R t).decoded h).1

theorem not_completes_of_access {t : ℕ}
    (h : EXU.asks (R.state t).core.exu = true ∨ EXU.waits (R.state t).core.exu = true) :
    completesAt R t = false :=
  EXU.Occupied.not_inFire_of_access
    (i := CPUCore.exuIn (R.state t).core (coreIn c (R.input t) (R.state t)))
    (frontInv R t).exu (frontInv R t).decoded h

theorem silent_of_waits {t : ℕ} (h : EXU.waits (R.state t).core.exu = true) :
    (requestAt R t).valid = false :=
  EXU.Occupied.memReqValid_of_waits
    (i := CPUCore.exuIn (R.state t).core (coreIn c (R.input t) (R.state t)))
    (frontInv R t).exu (frontInv R t).decoded h

theorem waits_before {t : ℕ} (h : EXU.waits (R.state (t + 1)).core.exu = true) :
    (EXU.asks (R.state t).core.exu = true ∧ (requestAt R t).valid = true) ∨
      EXU.waits (R.state t).core.exu = true := by
  rw [R.step t] at h
  rcases EXU.waits_next h with ⟨ha, hfire⟩ | ⟨hw, _⟩
  · refine Or.inl ⟨ha, ?_⟩
    have hfire' : CPUCore.dramReqFire (R.state t).core (coreIn c (R.input t) (R.state t)) = true :=
      hfire
    rw [dramReqFire_eq] at hfire'
    exact hfire'
  · exact Or.inr hw

/-- A controller that receives a response made the request two cycles before. -/
theorem ownRequest_of_waits {t : ℕ} (hw : EXU.waits (R.state t).core.exu = true)
    (hresp : (respAt R t).valid = true) : ∃ u, t = u + 2 ∧ OwnRequest R u t := by
  have hpipe1 : (R.state t).bus.perip.respValidPipe1 = true := by
    rw [← (portInv R t).inStep.resp_valid]
    exact hresp
  rcases two_le_of_resp R hpipe1 with ⟨u, rfl⟩
  have hissued : (requestAt R u).valid = true := (respAt_valid R u).symm.trans hresp
  -- the pipelines exclude a request in the cycle between
  have hsilent1 : (requestAt R (u + 1)).valid = false := by
    have hpipe0 := (portInv R (u + 2)).waits hw
    rw [hpipe1] at hpipe0
    rw [R.step (u + 1)] at hpipe0
    exact hpipe0
  have hw1 : EXU.waits (R.state (u + 1)).core.exu = true := by
    rcases waits_before R hw with ⟨_, hreq⟩ | hw1
    · exact absurd (hsilent1.symm.trans hreq) (by decide)
    · exact hw1
  have ha0 : EXU.asks (R.state u).core.exu = true := by
    rcases waits_before R hw1 with ⟨ha, _⟩ | hw0
    · exact ha
    · exact absurd ((silent_of_waits R hw0).symm.trans hissued) (by decide)
  have hrun : ∀ k, u ≤ k → k < u + 2 → completesAt R k = false := by
    intro k hk hlt
    rcases (by omega : k = u ∨ k = u + 1) with rfl | rfl
    · exact not_completes_of_access R (Or.inl ha0)
    · exact not_completes_of_access R (Or.inr hw1)
  have hv0 := valid_of_busy R (EXU.busy_of_asks ha0)
  refine ⟨u, rfl, hissued, ?_, hrun, ?_⟩
  · intro k hk hle
    have hheld := held_until R hv0 (k - u) (fun m hm hlt => hrun m hm (by omega))
    rwa [Nat.add_sub_cancel' hk] at hheld
  · intro k hk hle
    rcases (by omega : k = u + 1 ∨ k = u + 2) with rfl | rfl
    · exact hsilent1
    · exact silent_of_waits R hw

/-- The instruction in WBU is the one that completed in EXU two cycles before. -/
structure CompletedAt (u t : ℕ) : Prop where
  completes : completesAt R u = true
  iid : (R.state t).core.wbuPipe.bits.iid = (R.state u).core.exuPipe.bits.iid
  memAddr : (R.state t).core.wbuPipe.bits.memAddr = (requestAt R u).req.addr
  isLoad : (R.state t).core.wbuPipe.bits.isLoad = !(requestAt R u).req.wen

theorem lsuPipe_at (t : ℕ) :
    (R.state (t + 1)).core.lsuPipe =
      ⟨completesAt R t, EXU.outBits (R.state t).core.exu
        (CPUCore.exuIn (R.state t).core (coreIn c (R.input t) (R.state t)))⟩ := by
  rw [R.step t, completesAt, completes, ← CPUCore.exuOutValid_eq (frontInv R t).exu]
  exact CPUCore.lsuPipe_next _ _

theorem wbuPipe_at (t : ℕ) :
    (R.state (t + 1)).core.wbuPipe =
      ⟨(R.state t).core.lsuPipe.valid,
        LSU.outBits (R.state t).core.lsuPipe (DCache.readData (R.state t).core.dcache)⟩ := by
  rw [R.step t]
  exact CPUCore.wbuPipe_next _ _

theorem completedAt_of_wbu {t : ℕ} (h : memOpInWBU (R.state t) = true) :
    ∃ u, t = u + 2 ∧ (requestAt R u).valid = true ∧ CompletedAt R u t := by
  rcases two_le_of_resp R ((portInv R t).wbu h) with ⟨u, rfl⟩
  rw [memOpInWBU, wbuPipe_at, lsuPipe_at] at h
  simp only [LSU.outBits, EXU.outBits, CPUCore.exuIn, Bool.and_eq_true, Bool.or_eq_true] at h
  rcases h with ⟨hfire, hkind⟩
  have hmem : EXU.needMemReq (R.state u).core.exuPipe.bits = true := by
    rcases hkind with hk | hk <;> simp [EXU.needMemReq, hk.1]
  have hv : CPUCore.exuInValid (R.state u).core = true := CPUCore.exuInValid_of_inFire hfire
  have hreq := request_of_needMemReq (i := R.input u) (frontInv R u) hv hmem
  have haddr : (requestAt R u).req.addr = EXU.reg1AddImm (R.state u).core.exuPipe.bits := hreq.1
  have hwen : (requestAt R u).req.wen = EXU.isTypStore (R.state u).core.exuPipe.bits := hreq.2
  refine ⟨u, rfl, request_of_completes hfire hmem, hfire, ?_, ?_, ?_⟩
  · rw [wbuPipe_at, lsuPipe_at]
    rfl
  · rw [wbuPipe_at, lsuPipe_at, haddr]
    rfl
  · rw [wbuPipe_at, lsuPipe_at, hwen]
    have hisLoad : (R.state u).core.exuPipe.bits.info.typ = .load ∨
        (R.state u).core.exuPipe.bits.info.typ = .store := by
      simpa [EXU.needMemReq, EXU.isTypLoad, EXU.isTypStore] using hmem
    rcases hisLoad with ht | ht <;>
      simp [LSU.outBits, EXU.outBits, CPUCore.exuIn, EXU.isTypLoad, EXU.isTypStore, ht]

/-- Every data-memory response belongs to the request of two cycles before.  A controller
that consumes one made that request itself, for the instruction EXU still holds, and none
since; a load or store in WBU made it when it completed.  From the moment a controller has
left idle, its instruction stays in EXU and no redirect is taken until it completes. -/
theorem response_ownership (c : Config) (R : Run (machine c)) :
    (∀ t, (respAt R (t + 2)).valid = (requestAt R t).valid ∧
        ((requestAt R t).valid = true → (requestAt R t).req.wen = false →
          (respAt R (t + 2)).bits =
            DataBus.answer c.dramSizeInByte (R.state t).bus (requestAt R t).req.addr
              (R.input t).uartCh)) ∧
      (∀ t, EXU.waits (R.state t).core.exu = true → (respAt R t).valid = true →
        ∃ u, t = u + 2 ∧ OwnRequest R u t) ∧
      (∀ t, memOpInWBU (R.state t) = true →
        (respAt R t).valid = true ∧
          ∃ u, t = u + 2 ∧ (requestAt R u).valid = true ∧ CompletedAt R u t) ∧
      (∀ t n, EXU.busy (R.state t).core.exu = true →
        (∀ k, t ≤ k → k < t + n → completesAt R k = false) →
        HeldAt R t (t + n) ∧
          ∀ k, t ≤ k → k < t + n →
            CPUCore.redirectNow (R.state k).core (coreIn c (R.input k) (R.state k)) = false) := by
  refine ⟨fun t => ⟨respAt_valid R t, respAt_bits R⟩, fun t => ownRequest_of_waits R, ?_, ?_⟩
  · intro t hwbu
    refine ⟨?_, completedAt_of_wbu R hwbu⟩
    rw [respAt, (portInv R t).inStep.resp_valid]
    exact (portInv R t).wbu hwbu
  · intro t n hbusy hno
    have hv := valid_of_busy R hbusy
    refine ⟨held_until R hv n hno, fun k hk hlt => ?_⟩
    have hheld := held_until R hv (k - t) (fun m hm hm' => hno m hm (by omega))
    rw [Nat.add_sub_cancel' hk] at hheld
    exact no_redirect_while_held R hheld.1 (hno k hk hlt)

end Run

end JYDSoC
end Soc
end Jyd
