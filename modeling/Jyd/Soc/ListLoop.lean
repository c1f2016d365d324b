import Jyd.Hdl.LinkedList
import Jyd.Soc.ListOp

/-!
# ListLoop — the list-reversal loop on the SoC

Between two operations the loop lives in private registers: the node to visit, its
predecessor and, when the cache knew it, the prefetched successor.  Fetching the loop
instruction again, through whatever prediction, leaves them alone.
-/

namespace Jyd
namespace Soc
namespace JYDSoC

open Hdl Jyd.Core JYDPeripheralBridge

variable {c : Config} {d : RamRegion c.dramSizeInByte} {s : Regs} {i : In} {e : BitVec 15}

def writeReg (x : BitVec 5) (v : Word) (S : RegisterFile.Regs) : RegisterFile.Regs :=
  if x = 0#5 then S else Function.update S x v

/-! ## Completion of an operation -/

namespace HoldsList

variable {op : DecodedInst} (h : HoldsList d e op s)

include h

theorem pc : op.pc = TrimmedPC.expand e := by
  rw [← h.bits]
  exact CPUCore.pc_of_valid h.consistent.front.front h.consistent.front.phase h.valid

/-- The instruction writes the register `rd` through the accelerator lane. -/
theorem lane : op.info.resultKind = .accelerator ∧ op.info.rdWrEn = true ∧
    op.info.rd = IDU.rd op.code ∧ (IDU.metaInfo op.code).typ = .arithmetic := by
  rcases h.decoded with ⟨j, hj⟩
  have hkind : IDU.isListReverseCustom (IDU.inst j) = true := by
    have hk := h.kind
    rw [hj] at hk
    exact hk
  have hmeta := IDU.metaInfo_custom0 _ (IDU.opcode_of_listReverse _ hkind).1
  have hcode : (IDU.outBits j).code = IDU.inst j := rfl
  rw [hj]
  refine ⟨?_, ?_, rfl, ?_⟩
  · simp [IDU.outBits, IDU.info, IDU.resultKind, IDU.isTyp, hmeta, IDU.isAccelerator, hkind]
  · simp [IDU.outBits, IDU.info, IDU.rdWrEn, IDU.isTyp, hmeta]
  · rw [hcode, hmeta]

theorem resultValue_eq : resultValue c i s = s.core.exu.listReverse.listReverseResult := by
  have hres := h.lane
  have hdfa : EXU.isNumericDfa op = false := EXU.not_numericDfa_of_listReverse h.decoded h.kind
  simp [resultValue, h.bits, h.not_load, ResultLaneSelect.nonLoadData, mux1H, EXU.writeBackInfo,
    CPUCore.exuIn, EXU.resultIsFast, EXU.resultIsLong, EXU.resultIsAccelerator, hres,
    EXU.acceleratorData, hdfa, h.kind]

section Done

variable (hdone : s.core.exu.listReverse.listReverseState = .done)

include hdone

theorem completes_of_done : completes c i s = true := by
  rw [h.completes_iff, hdone]
  rfl

theorem regs_written {S : RegisterFile.Regs} (hregs : ∀ i', drainedRegs c i' s = S) (i' : In) :
    drainedRegs c i' (JYDSoC.next c i s) =
      writeReg (IDU.rd op.code) s.core.exu.listReverse.listReverseResult S := by
  have hfire : CPUCore.exuInFire s.core (coreIn c i s) = true := h.completes_of_done hdone
  rcases h.lane with ⟨_, hen, hrd, _⟩
  rw [drainedRegs_next h.consistent.front, hregs]
  funext x
  rw [writeBack, h.resultValue_eq, CPUCore.completesInto, hfire, h.bits, hen, hrd]
  by_cases h0 : IDU.rd op.code = 0#5
  · have hno : (0#5 == x && x != 0#5) = false := by
      by_cases hx : x = 0#5
      · simp [hx]
      · simp [Ne.symm hx]
    simp [writeReg, h0, hno]
  · by_cases hx : x = IDU.rd op.code
    · subst hx
      simp [writeReg, h0]
    · simp [writeReg, h0, hx, Ne.symm hx]

/-- The loop instruction continues with itself while it is taken. -/
theorem expected_of_done :
    CPUCore.nextExpected s.core (coreIn c i s) e =
      if EXU.isListReverseLoop op && s.core.exu.listReverse.listReverseLoopTaken then e
      else e + 1 := by
  have hfire : CPUCore.exuInFire s.core (coreIn c i s) = true := h.completes_of_done hdone
  have hexu : EXU.Occupied s.core.exu (CPUCore.exuInValid s.core) s.core.exuPipe.bits :=
    h.consistent.front.exu
  have hnxt := EXU.nxtPC_eq_continuation (i := CPUCore.exuIn s.core (coreIn c i s)) hexu
    (h.consistent.front.decoded h.valid) hfire
  have hbits : (CPUCore.exuIn s.core (coreIn c i s)).dinst = op := h.bits
  rw [CPUCore.nextExpected, hfire, if_pos rfl, hnxt, hbits, EXU.continuation,
    ← h.decoded.listReverseLoop_eq, h.lane.2.2.2, h.pc]
  cases EXU.isListReverseLoop op <;> cases s.core.exu.listReverse.listReverseLoopTaken <;>
    simp [TrimmedPC.trim_expand]

end Done

end HoldsList

/-! ## Between two operations -/

/-- The loop is about to visit `cur`, whose predecessor will be `prev`. -/
structure AtLoop (d : RamRegion c.dramSizeInByte) (e : BitVec 15) (m : ℕ → Word)
    (S : RegisterFile.Regs) (cur prev : Word) (s : Regs) : Prop where
  consistent : Consistent d e s
  state : s.core.exu.listReverse.listReverseState = .idle
  address : s.core.exu.listReverse.listReverseLoopAddress = cur
  chain : s.core.exu.listReverse.listReverseChainPrevious = prev
  prefetch : s.core.exu.listReverse.listReversePrefetchValid = true →
    s.core.exu.listReverse.listReversePrefetchHit = true →
    s.core.exu.listReverse.listReversePrefetchData = m (cellOf c cur)
  mem : s.bus.dram.mem = m
  regs : ∀ i', drainedRegs c i' s = S

variable {m : ℕ → Word} {S : RegisterFile.Regs} {cur prev : Word} {op : DecodedInst}

/-- An empty EXU leaves the memory and the loop registers alone. -/
theorem AtLoop.stay (h : AtLoop d e m S cur prev s) (hv : CPUCore.exuInValid s.core = false) :
    AtLoop d e m S cur prev (JYDSoC.next c i s) := by
  have hsilent : (busReq c i s).valid = false := Bool.eq_false_iff.mpr fun hreq =>
    Bool.false_ne_true (hv.symm.trans (valid_of_request h.consistent.front hreq))
  have hdisc : Disciplined d i s :=
    ⟨fun hreq => absurd (hsilent.symm.trans hreq) (by decide),
      fun hreq => absurd (hsilent.symm.trans hreq) (by decide)⟩
  have hno : CPUCore.exuInFire s.core (coreIn c i s) = false := CPUCore.no_fire_of_invalid hv
  have hcons := h.consistent.next hdisc
  rw [CPUCore.nextExpected, hno] at hcons
  have hkept : (JYDSoC.next c i s).core.exu.listReverse = s.core.exu.listReverse := by
    have hvalid : (EXU.listReverseIn s.core.exu
        (CPUCore.exuIn s.core (coreIn c i s))).valid = false := hv
    have hnext : (JYDSoC.next c i s).core.exu.listReverse =
        ListReverse.next s.core.exu.listReverse
          (EXU.listReverseIn s.core.exu (CPUCore.exuIn s.core (coreIn c i s))) := rfl
    have hcontrol : ListReverse.control s.core.exu.listReverse
        (EXU.listReverseIn s.core.exu (CPUCore.exuIn s.core (coreIn c i s))) =
          s.core.exu.listReverse := by
      simp [ListReverse.control, h.state, hvalid]
    have hdone : (s.core.exu.listReverse.listReverseState == .done) = false := by
      rw [h.state]
      rfl
    simp only [hnext, ListReverse.next, hcontrol, hdone, Bool.false_eq_true, if_false]
  refine ⟨hcons, ?_, ?_, ?_, ?_, ?_, regs_kept h.consistent.front hno h.regs⟩
  · rw [hkept, h.state]
  · rw [hkept, h.address]
  · rw [hkept, h.chain]
  · rw [hkept]
    exact h.prefetch
  · rw [mem_next_of_not_writesRam (by simp [writesRam, hsilent]), h.mem]

/-- What EXU holds next is the loop instruction itself. -/
theorem AtLoop.holds (h : AtLoop d e m S cur prev s) (hv : CPUCore.exuInValid s.core = true)
    (hloop : IDU.isListReverseLoopEncoding (program c e) = true) :
    HoldsList d e s.core.exuPipe.bits s ∧ EXU.isListReverseLoop s.core.exuPipe.bits = true ∧
      s.core.exuPipe.bits.code = program c e := by
  have hdec := h.consistent.front.decoded hv
  have hcode := h.consistent.code hv
  have hkind : EXU.isListReverseLoop s.core.exuPipe.bits = true := by
    rw [hdec.listReverseLoop_eq, hcode]
    exact hloop
  exact ⟨⟨h.consistent, hv, rfl, EXU.listReverse_of_loop hdec hkind⟩, hkind, hcode⟩

/-! ## Starting an operation -/

/-- The cycle in which the controller takes the instruction. -/
theorem HoldsList.start (h : HoldsList d e op s)
    (hs : s.core.exu.listReverse.listReverseState = .idle) (hmem : s.bus.dram.mem = m)
    (hregs : ∀ i', drainedRegs c i' s = S) :
    HoldsList d e op (JYDSoC.next c i s) ∧ (JYDSoC.next c i s).bus.dram.mem = m ∧
      (∀ i', drainedRegs c i' (JYDSoC.next c i s) = S) := by
  have hno : completes c i s = false := by
    rw [h.completes_iff, hs]
    rfl
  have hsilent : ListReverse.asks s.core.exu.listReverse = false := by
    simp [ListReverse.asks, hs]
  refine ⟨h.stay (by simp [hs]) (h.disciplined_of_silent hsilent), ?_,
    regs_kept h.consistent.front hno hregs⟩
  rw [h.mem_kept (by simp [hs]), hmem]

/-- The first instruction has arrived in EXU with the head of the list. -/
structure AtInit (d : RamRegion c.dramSizeInByte) (e : BitVec 15) (op : DecodedInst) (m : ℕ → Word)
    (S : RegisterFile.Regs) (head : Word) (s : Regs) : Prop where
  holds : HoldsList d e op s
  state : s.core.exu.listReverse.listReverseState = .idle
  first : EXU.isListReverseLoop op = false
  head : op.info.reg1 = head
  null : op.info.reg2 = 0#32
  mem : s.bus.dram.mem = m
  regs : ∀ i', drainedRegs c i' s = S

theorem AtInit.step {head : Word} (h : AtInit d e op m S head s) (h0 : head ≠ 0#32) :
    AtLookup d e op m S head 0#32 (JYDSoC.next c i s) := by
  rcases h.holds.start (i := i) h.state h.mem h.regs with ⟨hholds, hmem, hregs⟩
  have hnext := h.holds.listReverse_next (i := i)
  refine ⟨⟨hholds, ?_, ?_, ?_, hregs⟩, ?_, ?_, hmem⟩ <;> rw [hnext] <;>
    simp [ListReverse.next, ListReverse.control, ListReverse.start,
      ListReverse.listReverseActiveCurrent, h.state, h.first, h.head, h.null, h0]

/-- A loop step on a node starts with the store when the prefetch hit, else with the load. -/
theorem AtLoop.start (h : AtLoop d e m S cur prev s) (hholds : HoldsList d e op s)
    (hloop : EXU.isListReverseLoop op = true) (h0 : cur ≠ 0#32) :
    AtStore d e op m S cur prev (JYDSoC.next c i s) ∨
      AtLoad d e op m S cur prev (JYDSoC.next c i s) := by
  rcases hholds.start (i := i) h.state h.mem h.regs with ⟨hholds', hmem, hregs⟩
  have hnext := hholds.listReverse_next (i := i)
  have hin : InOp d e op S cur prev (JYDSoC.next c i s) := by
    refine ⟨hholds', ?_, ?_, ?_, hregs⟩ <;> rw [hnext] <;>
      simp [ListReverse.next, ListReverse.control, ListReverse.start,
        ListReverse.listReverseActiveCurrent, h.state, hloop, h.address, h.chain, h0]
  cases hpre : s.core.exu.listReverse.listReversePrefetchValid &&
      s.core.exu.listReverse.listReversePrefetchHit with
  | true =>
    have hdata := h.prefetch (Bool.and_eq_true _ _ ▸ hpre).1 (Bool.and_eq_true _ _ ▸ hpre).2
    refine Or.inl ⟨hin, ?_, ?_, ?_, hmem⟩ <;> rw [hnext] <;>
      simp [ListReverse.next, ListReverse.control, ListReverse.start,
        ListReverse.listReverseActiveCurrent, h.state, hloop, h.address, h0, hpre, hdata]
  | false =>
    refine Or.inr ⟨hin, ?_, hmem⟩
    rw [hnext]
    simp [ListReverse.next, ListReverse.control, ListReverse.start,
      ListReverse.listReverseActiveCurrent, h.state, hloop, h.address, h0, hpre]

/-- The loop instruction completes for the last time; `F` are the registers behind it. -/
structure AtLast (d : RamRegion c.dramSizeInByte) (e : BitVec 15) (M : ℕ → Word)
    (F : RegisterFile.Regs) (s : Regs) : Prop where
  holds : HoldsList d e s.core.exuPipe.bits s
  loop : EXU.isListReverseLoop s.core.exuPipe.bits = true
  state : s.core.exu.listReverse.listReverseState = .done
  taken : s.core.exu.listReverse.listReverseLoopTaken = false
  mem : s.bus.dram.mem = M
  regs : ∀ i i', drainedRegs c i' (JYDSoC.next c i s) = F

/-- A loop step on the null pointer returns the predecessor. -/
theorem AtLoop.start_null (h : AtLoop d e m S cur prev s) (hholds : HoldsList d e op s)
    (hloop : EXU.isListReverseLoop op = true) (h0 : cur = 0#32) :
    AtLast d e m (writeReg (IDU.rd op.code) prev S) (JYDSoC.next c i s) := by
  rcases hholds.start (i := i) h.state h.mem h.regs with ⟨hholds', hmem, hregs⟩
  have hnext := hholds.listReverse_next (i := i)
  have hfields : (JYDSoC.next c i s).core.exu.listReverse.listReverseState = .done ∧
      (JYDSoC.next c i s).core.exu.listReverse.listReverseLoopTaken = false ∧
      (JYDSoC.next c i s).core.exu.listReverse.listReverseResult = prev := by
    rw [hnext]
    simp [ListReverse.next, ListReverse.control, ListReverse.start,
      ListReverse.listReverseActiveCurrent, h.state, hloop, h.address, h.chain, h0]
  have hbits := hholds'.bits
  refine ⟨by rw [hbits]; exact hholds', by rw [hbits]; exact hloop, hfields.1, hfields.2.1, hmem, ?_⟩
  intro i₁ i₂
  rw [hholds'.regs_written hfields.1 hregs, hfields.2.2]

/-! ## Leaving an operation -/

/-- The prefetched successor is current: the store went to another node. -/
theorem AtDone.step (h : AtDone d e op m S cur prev s)
    (hsucc : m (cellOf c cur) ≠ 0#32 → cellOf c (m (cellOf c cur)) ≠ cellOf c cur)
    (hgo : EXU.isListReverseLoop op = false ∨ m (cellOf c cur) ≠ 0#32) :
    AtLoop d (if EXU.isListReverseLoop op then e else e + 1) (Function.update m (cellOf c cur) prev)
      (writeReg (IDU.rd op.code) (m (cellOf c cur)) S) (m (cellOf c cur)) cur
      (JYDSoC.next c i s) := by
  have hresult : s.core.exu.listReverse.listReverseResult = m (cellOf c cur) := by
    rw [h.result]
    rcases hgo with hg | hg <;> simp [hg]
  have hnext := h.holds.listReverse_next (i := i)
  -- the node is relinked; the instruction leaves and the next one finds the successor
  have hsilent : ListReverse.asks s.core.exu.listReverse = false := by
    simp [ListReverse.asks, h.state]
  have hfire := h.holds.completes_of_done (i := i) h.state
  have hcons := h.holds.consistent.next (i := i) (h.holds.disciplined_of_silent hsilent)
  have htaken : (EXU.isListReverseLoop op && s.core.exu.listReverse.listReverseLoopTaken) =
      EXU.isListReverseLoop op := by
    rw [h.taken]
    rcases hgo with hg | hg <;> simp [hg]
  rw [h.holds.expected_of_done h.state, htaken] at hcons
  refine ⟨hcons, ?_, ?_, ?_, ?_, ?_, ?_⟩
  · rw [hnext]
    simp [ListReverse.next, ListReverse.control, h.state, hfire]
  · rw [hnext]
    simp [ListReverse.next, h.state, hresult]
  · rw [hnext, (listReverse_kept (by simp [h.state])).2.2, h.chain]
  · intro hvalid hhit
    rw [hnext] at hvalid hhit ⊢
    simp only [ListReverse.next, ListReverse.control, h.state, hfire, h.next] at hvalid hhit ⊢
    have hz : m (cellOf c cur) ≠ 0#32 := by simpa using hvalid
    -- the prefetched word is still right: the store went to a different node
    have hne : m (cellOf c cur) ≠ cur := fun heq => hsucc hz (by rw [heq])
    have hread := h.prefetch hhit hz
    rw [Function.update_of_ne (hsucc hz), ← hread]
    simp [h.current, hne]
  · rw [h.holds.mem_kept (by simp [h.state]), h.mem]
  · intro i'
    rw [h.holds.regs_written h.state h.regs, hresult]

theorem AtDone.last (h : AtDone d e op m S cur prev s) (hloop : EXU.isListReverseLoop op = true)
    (hnull : m (cellOf c cur) = 0#32) :
    AtLast d e (Function.update m (cellOf c cur) prev) (writeReg (IDU.rd op.code) cur S) s := by
  have hresult : s.core.exu.listReverse.listReverseResult = cur := by
    rw [h.result, hloop, hnull]
    rfl
  have hbits := h.holds.bits
  refine ⟨by rw [hbits]; exact h.holds, by rw [hbits]; exact hloop, h.state, ?_, h.mem, ?_⟩
  · rw [h.taken, hnull]
    simp
  · intro i₁ i₂
    rw [h.holds.regs_written h.state h.regs, hresult]

end JYDSoC
end Soc
end Jyd
