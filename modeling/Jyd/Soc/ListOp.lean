import Jyd.Soc.FetchLiveness
import Jyd.Soc.SequentialRegs

/-!
# ListOp — one list-reversal instruction on the SoC

The controller looks the node up in the cache or reads it from memory, writes the
predecessor into it and completes.  Each stage is described by what it still has to
do with the memory it started from, and each clock edge leads to the next stage.
-/

namespace Jyd
namespace Soc
namespace JYDSoC

open Hdl Jyd.Core JYDPeripheralBridge

variable {c : Config} {d : RamRegion c.dramSizeInByte} {s : Regs} {i : In} {e : BitVec 15}

/-- Pipeline, data port and cache are in order, and `e` is the next instruction. -/
structure Consistent (d : RamRegion c.dramSizeInByte) (e : BitVec 15) (s : Regs) : Prop where
  front : FrontInv c s e
  port : PortInv s
  cache : CacheInv d s

theorem Consistent.next (h : Consistent d e s) (hdisc : Disciplined d i s) :
    Consistent d (CPUCore.nextExpected s.core (coreIn c i s) e) (next c i s) :=
  ⟨h.front.next, h.port.next h.front, h.cache.next h.front hdisc⟩

/-- EXU holds the instruction that the program has at the expected address. -/
theorem Consistent.code (h : Consistent d e s) (hv : CPUCore.exuInValid s.core = true) :
    s.core.exuPipe.bits.code = program c e := by
  have hok := h.front.front.exu (CPUCore.exuInValid_iff.mp hv).1
  rw [hok.code, CPUCore.pc_of_valid h.front.front h.front.phase hv, TrimmedPC.trim_expand]

/-- The memory cell of a node. -/
def cellOf (c : Config) : Word → ℕ := SimpleBusMem.wordIndex c.dramSizeInByte

/-- EXU holds the list-reversal instruction `op`. -/
structure HoldsList (d : RamRegion c.dramSizeInByte) (e : BitVec 15) (op : DecodedInst)
    (s : Regs) : Prop where
  consistent : Consistent d e s
  valid : CPUCore.exuInValid s.core = true
  bits : s.core.exuPipe.bits = op
  kind : EXU.isListReverse op = true

namespace HoldsList

variable {op : DecodedInst} (h : HoldsList d e op s)

include h

theorem decoded : Decoded op := h.bits ▸ h.consistent.front.decoded h.valid

theorem kind_bits : EXU.isListReverse s.core.exuPipe.bits = true := h.bits ▸ h.kind

theorem not_dfaStep : EXU.isNumericDfaStep s.core.exuPipe.bits = false := by
  have hdfa := EXU.not_numericDfa_of_listReverse (h.consistent.front.decoded h.valid) h.kind_bits
  simp [EXU.isNumericDfaStep, hdfa]

theorem isStep : EXU.isListReverseStep op = true := by
  rcases h.decoded with ⟨j, hj⟩
  have hkind := h.kind
  rw [hj] at hkind ⊢
  exact hkind

theorem not_load : EXU.isTypLoad op = false := by
  have harith := EXU.isTypArithmetic_of_listReverse h.decoded h.kind
  have hmem := EXU.not_needMemReq_of_arithmetic harith
  simp only [EXU.needMemReq, Bool.or_eq_false_iff] at hmem
  exact hmem.1

/-! ## The data port -/

theorem request_valid : (busReq c i s).valid = ListReverse.asks s.core.exu.listReverse := by
  have hocc : EXU.Occupied s.core.exu (CPUCore.exuInValid s.core) s.core.exuPipe.bits :=
    h.consistent.front.exu
  exact EXU.Occupied.memReqValid_of_listReverse (i := CPUCore.exuIn s.core (coreIn c i s)) hocc
    (h.consistent.front.decoded h.valid) h.kind_bits

theorem request :
    (busReq c i s).req.addr = s.core.exu.listReverse.listReverseCurrent ∧
      (busReq c i s).req.wen = (s.core.exu.listReverse.listReverseState == .storeRequest) ∧
      (s.core.exu.listReverse.listReverseState = .storeRequest →
        (busReq c i s).req.wdata = s.core.exu.listReverse.listReversePrevious ∧
          (busReq c i s).req.wmask = 0b1111#4) := by
  have hkind := h.kind_bits
  have hn := h.not_dfaStep
  refine ⟨?_, ?_, ?_⟩
  · simp [busReq, CPUCore.dramReq, EXU.memReq, CPUCore.exuIn, hn, hkind]
  · simp [busReq, CPUCore.dramReq, EXU.memReq, CPUCore.exuIn, hn, hkind,
      EXU.listReverseStoreRequest]
  · intro hs
    have hstore : EXU.listReverseStoreRequest s.core.exu = true := by
      simp [EXU.listReverseStoreRequest, hs]
    simp [busReq, CPUCore.dramReq, EXU.memReq, CPUCore.exuIn, hstore]

theorem disciplined (hregion : d.region s.core.exu.listReverse.listReverseCurrent) :
    Disciplined d i s := by
  refine ⟨?_, ?_⟩
  · intro _ _ _
    rw [h.request.1]
    exact hregion
  · intro _ hload
    simp only [EXU.cacheableLoad, h.bits, h.not_load, Bool.false_and] at hload
    exact absurd hload (by decide)

/-- Without a request the node is not constrained. -/
theorem disciplined_of_silent (hs : ListReverse.asks s.core.exu.listReverse = false) :
    Disciplined d i s := by
  have hsilent : (busReq c i s).valid = false := h.request_valid.trans hs
  refine ⟨?_, ?_⟩
  · intro hv
    exact absurd (hsilent.symm.trans hv) (by decide)
  · intro hv
    exact absurd (hsilent.symm.trans hv) (by decide)

/-! ## Memory -/

theorem mem_kept (hs : s.core.exu.listReverse.listReverseState ≠ .storeRequest) :
    (JYDSoC.next c i s).bus.dram.mem = s.bus.dram.mem := by
  refine mem_next_of_not_writesRam ?_
  have hwen : (busReq c i s).req.wen = false := by
    rw [h.request.2.1]
    simpa using hs
  simp [writesRam, hwen]

theorem mem_stored (hs : s.core.exu.listReverse.listReverseState = .storeRequest)
    (hregion : d.region s.core.exu.listReverse.listReverseCurrent) :
    (JYDSoC.next c i s).bus.dram.mem =
      Function.update s.bus.dram.mem (cellOf c s.core.exu.listReverse.listReverseCurrent)
        s.core.exu.listReverse.listReversePrevious := by
  have hvalid : (busReq c i s).valid = true := by
    rw [h.request_valid]
    simp [ListReverse.asks, hs]
  have hwen : (busReq c i s).req.wen = true := by
    rw [h.request.2.1, hs]
    rfl
  rcases (h.request (i := i)).2.2 hs with ⟨hdata, hmask⟩
  have htarget : targetSel (busReq c i s).req.addr = .dram := by
    rw [h.request.1]
    exact targetSel_of_inDram (d.inDram hregion)
  rw [mem_next_of_store hvalid hwen htarget, SimpleBusMem.write_eq, h.request.1,
    if_pos (d.inRange hregion), hdata, hmask, DCache.writeMasked_full]
  rfl

/-! ## The cache -/

theorem query : CPUCore.dcacheQueryAddr s.core =
    s.core.exu.listReverse.listReverseQueryAddress := by
  simp [CPUCore.dcacheQueryAddr, EXU.dcacheQueryAddr, h.kind_bits]

/-- A hit delivers, one cycle later, the word that memory holds now. -/
theorem readData_of_hit (hs : s.core.exu.listReverse.listReverseState ≠ .done)
    (hregion : d.region s.core.exu.listReverse.listReverseQueryAddress)
    (hhit : (CPUCore.exuIn s.core (coreIn c i s)).dcacheHit = true) :
    DCache.readData (JYDSoC.next c i s).core.dcache =
      s.bus.dram.mem (cellOf c s.core.exu.listReverse.listReverseQueryAddress) := by
  have hpend : pendingStore s.core = false := by simp [pendingStore, hs]
  have hblock := h.consistent.cache.block
  rw [settled, if_neg (by simp [hpend])] at hblock
  have hread : DCache.readData (JYDSoC.next c i s).core.dcache =
      DCache.blockData s.core.dcache (DCache.indexOf (CPUCore.dcacheQueryAddr s.core)) := rfl
  have hhit' : DCache.hit s.core.dcache (DCache.indexOf (CPUCore.dcacheQueryAddr s.core))
      (DCache.tagOf (CPUCore.dcacheQueryAddr s.core)) = true := hhit
  rw [h.query] at hread hhit'
  rcases DCache.hit_iff.mp hhit' with ⟨hv, ht⟩
  rw [hread]
  exact hblock _ hregion hv ht

/-! ## The controller -/

theorem listReverse_next :
    (JYDSoC.next c i s).core.exu.listReverse =
      ListReverse.next s.core.exu.listReverse
        { valid := true
          isListReverse := true
          isListReverseStep := true
          isListReverseLoop := EXU.isListReverseLoop op
          reg_v1 := op.info.reg1
          reg_v2 := op.info.reg2
          dcacheHit := (CPUCore.exuIn s.core (coreIn c i s)).dcacheHit
          dcacheReadData := DCache.readData s.core.dcache
          memReqFire := ListReverse.asks s.core.exu.listReverse
          memResp := DataBus.resp s.bus
          outFire := completes c i s } := by
  have hfire : EXU.memReqFire s.core.exu (CPUCore.exuIn s.core (coreIn c i s)) =
      ListReverse.asks s.core.exu.listReverse := by
    have hreq := h.request_valid (i := i)
    rw [← hreq, ← dramReqFire_eq]
    rfl
  have hout : EXU.outFire s.core.exu (CPUCore.exuIn s.core (coreIn c i s)) = completes c i s :=
    CPUCore.exuOutFire_eq h.consistent.front.exu
  have hnext : (JYDSoC.next c i s).core.exu.listReverse =
      ListReverse.next s.core.exu.listReverse
        (EXU.listReverseIn s.core.exu (CPUCore.exuIn s.core (coreIn c i s))) := rfl
  rw [hnext, EXU.listReverseIn, hfire, hout]
  simp only [CPUCore.exuIn, h.valid, h.bits, h.kind, h.isStep]
  rfl

theorem completes_iff :
    completes c i s = (s.core.exu.listReverse.listReverseState == .done) := by
  have hkind := h.kind_bits
  have hn := h.not_dfaStep
  have hout : CPUCore.exuOutReady s.core = true := CPUCore.exuOutReady_eq s.core
  simp [completes, CPUCore.exuInFire, EXU.inFire, EXU.inReady, CPUCore.exuIn, h.valid, hn, hkind,
    EXU.listReverseDone, hout]

/-- Until it is done, the instruction stays. -/
theorem stay (hs : s.core.exu.listReverse.listReverseState ≠ .done) (hdisc : Disciplined d i s) :
    HoldsList d e op (JYDSoC.next c i s) := by
  have hno : CPUCore.exuInFire s.core (coreIn c i s) = false := by
    have hcomp := h.completes_iff (i := i)
    rw [beq_eq_false_iff_ne.mpr hs] at hcomp
    exact hcomp
  have hcons := h.consistent.next hdisc
  rw [CPUCore.nextExpected, hno] at hcons
  rcases CPUCore.exu_stays h.consistent.front.exu h.valid hno with ⟨hv, hbits⟩
  exact ⟨hcons, hv, hbits.trans h.bits, h.kind⟩

end HoldsList

/-! ## Stages -/

theorem listReverse_kept {l : ListReverse.Regs} {j : ListReverse.In}
    (hs : l.listReverseState ≠ .idle) :
    (ListReverse.next l j).listReverseCurrent = l.listReverseCurrent ∧
      (ListReverse.next l j).listReversePrevious = l.listReversePrevious ∧
      (ListReverse.next l j).listReverseChainPrevious = l.listReverseChainPrevious := by
  have hidle : (l.listReverseState == .idle) = false := beq_eq_false_iff_ne.mpr hs
  simp only [ListReverse.next, ListReverse.control, hidle, Bool.false_and, Bool.false_eq_true,
    if_false]
  split_ifs <;> exact ⟨rfl, rfl, rfl⟩

/-- Registers that are not written in this cycle. -/
theorem regs_kept {S : RegisterFile.Regs} (hf : FrontInv c s e) (hno : completes c i s = false)
    (h : ∀ i', drainedRegs c i' s = S) (i' : In) : drainedRegs c i' (next c i s) = S := by
  rw [drainedRegs_next hf, h]
  funext x
  have hno' : CPUCore.exuInFire s.core (coreIn c i s) = false := hno
  simp [writeBack, CPUCore.completesInto, hno']

/-- The operation `op` works on the node `cur` with predecessor `prev`; `m` and `S` are the
memory and the registers it started from. -/
structure InOp (d : RamRegion c.dramSizeInByte) (e : BitVec 15) (op : DecodedInst)
    (S : RegisterFile.Regs) (cur prev : Word) (s : Regs) : Prop where
  holds : HoldsList d e op s
  current : s.core.exu.listReverse.listReverseCurrent = cur
  previous : s.core.exu.listReverse.listReversePrevious = prev
  chain : s.core.exu.listReverse.listReverseChainPrevious = cur
  regs : ∀ i', drainedRegs c i' s = S

section Op

variable (d) (e) (op : DecodedInst) (m : ℕ → Word) (S : RegisterFile.Regs) (cur prev : Word)

structure AtLookup (s : Regs) : Prop extends InOp d e op S cur prev s where
  state : s.core.exu.listReverse.listReverseState = .lookup
  query : s.core.exu.listReverse.listReverseQueryAddress = cur
  mem : s.bus.dram.mem = m

structure AtResolve (s : Regs) : Prop extends InOp d e op S cur prev s where
  state : s.core.exu.listReverse.listReverseState = .lookupResolve
  hit : s.core.exu.listReverse.listReverseLookupHit = true →
    DCache.readData s.core.dcache = m (cellOf c cur)
  mem : s.bus.dram.mem = m

structure AtLoad (s : Regs) : Prop extends InOp d e op S cur prev s where
  state : s.core.exu.listReverse.listReverseState = .loadRequest
  mem : s.bus.dram.mem = m

/-- The request is one cycle old. -/
structure AtSent (s : Regs) : Prop extends InOp d e op S cur prev s where
  state : s.core.exu.listReverse.listReverseState = .loadResponse
  sent : s.bus.perip.respValidPipe0 = true
  due : DataBus.due s.bus = m (cellOf c cur)
  mem : s.bus.dram.mem = m

/-- The answer is here. -/
structure AtAnswer (s : Regs) : Prop extends InOp d e op S cur prev s where
  state : s.core.exu.listReverse.listReverseState = .loadResponse
  valid : (DataBus.resp s.bus).valid = true
  bits : (DataBus.resp s.bus).bits = m (cellOf c cur)
  mem : s.bus.dram.mem = m

structure AtStore (s : Regs) : Prop extends InOp d e op S cur prev s where
  state : s.core.exu.listReverse.listReverseState = .storeRequest
  next : s.core.exu.listReverse.listReverseNext = m (cellOf c cur)
  query : s.core.exu.listReverse.listReverseQueryAddress = m (cellOf c cur)
  mem : s.bus.dram.mem = m

/-- The node is relinked and the instruction completes in this cycle. -/
structure AtDone (s : Regs) : Prop extends InOp d e op S cur prev s where
  state : s.core.exu.listReverse.listReverseState = .done
  next : s.core.exu.listReverse.listReverseNext = m (cellOf c cur)
  taken : s.core.exu.listReverse.listReverseLoopTaken =
    (EXU.isListReverseLoop op && m (cellOf c cur) != 0#32)
  result : s.core.exu.listReverse.listReverseResult =
    if EXU.isListReverseLoop op && m (cellOf c cur) == 0#32 then cur else m (cellOf c cur)
  prefetch : s.core.exu.listReverse.listReversePrefetchHit = true → m (cellOf c cur) ≠ 0#32 →
    DCache.readData s.core.dcache = m (cellOf c (m (cellOf c cur)))
  mem : s.bus.dram.mem = Function.update m (cellOf c cur) prev

variable {d e op m S cur prev}

section Step

variable (hregion : d.region cur)

include hregion

theorem InOp.disciplined (h : InOp d e op S cur prev s) : Disciplined d i s :=
  h.holds.disciplined (by rw [h.current]; exact hregion)

/-- One cycle that does not complete the operation. -/
theorem InOp.stay (h : InOp d e op S cur prev s)
    (hidle : s.core.exu.listReverse.listReverseState ≠ .idle)
    (hdone : s.core.exu.listReverse.listReverseState ≠ .done) :
    InOp d e op S cur prev (JYDSoC.next c i s) := by
  have hno : completes c i s = false := by
    rw [h.holds.completes_iff]
    exact beq_eq_false_iff_ne.mpr hdone
  have hnext := h.holds.listReverse_next (i := i)
  rcases listReverse_kept (l := s.core.exu.listReverse) hidle with ⟨hcur, hprev, hchain⟩
  refine ⟨h.holds.stay hdone (h.disciplined hregion), ?_, ?_, ?_,
    regs_kept h.holds.consistent.front hno h.regs⟩
  · rw [hnext, hcur, h.current]
  · rw [hnext, hprev, h.previous]
  · rw [hnext, hchain, h.chain]

theorem AtLookup.step (h : AtLookup d e op m S cur prev s) :
    AtResolve d e op m S cur prev (JYDSoC.next c i s) := by
  have hin := h.toInOp.stay hregion (i := i) (by simp [h.state]) (by simp [h.state])
  have hnext := h.holds.listReverse_next (i := i)
  refine ⟨hin, ?_, ?_, ?_⟩
  · rw [hnext]
    simp [ListReverse.next, ListReverse.control, h.state]
  · intro hhit
    rw [hnext] at hhit
    simp only [ListReverse.next, ListReverse.control, h.state] at hhit
    have hread := h.holds.readData_of_hit (i := i) (by simp [h.state])
      (by rw [h.query]; exact hregion) hhit
    rw [hread, h.query, h.mem]
  · rw [h.holds.mem_kept (by simp [h.state]), h.mem]

/-- The block memory answers the lookup: a hit is followed by the store. -/
theorem AtResolve.step (h : AtResolve d e op m S cur prev s) :
    AtStore d e op m S cur prev (JYDSoC.next c i s) ∨
      AtLoad d e op m S cur prev (JYDSoC.next c i s) := by
  have hin := h.toInOp.stay hregion (i := i) (by simp [h.state]) (by simp [h.state])
  have hmem : (JYDSoC.next c i s).bus.dram.mem = m := by
    rw [h.holds.mem_kept (by simp [h.state]), h.mem]
  have hnext := h.holds.listReverse_next (i := i)
  cases hhit : s.core.exu.listReverse.listReverseLookupHit with
  | true =>
    refine Or.inl ⟨hin, ?_, ?_, ?_, hmem⟩
    · rw [hnext]
      simp [ListReverse.next, ListReverse.control, h.state, hhit]
    · rw [hnext]
      simpa [ListReverse.next, ListReverse.control, h.state] using h.hit hhit
    · rw [hnext]
      simpa [ListReverse.next, ListReverse.control, h.state] using h.hit hhit
  | false =>
    refine Or.inr ⟨hin, ?_, hmem⟩
    rw [hnext]
    simp [ListReverse.next, ListReverse.control, h.state, hhit]

theorem AtLoad.step (h : AtLoad d e op m S cur prev s) :
    AtSent d e op m S cur prev (JYDSoC.next c i s) := by
  have hin := h.toInOp.stay hregion (i := i) (by simp [h.state]) (by simp [h.state])
  have hnext := h.holds.listReverse_next (i := i)
  have hvalid : (busReq c i s).valid = true := by
    rw [h.holds.request_valid]
    simp [ListReverse.asks, h.state]
  rcases h.holds.request (i := i) with ⟨haddr, hwen, _⟩
  have hread : (busReq c i s).req.wen = false := by
    rw [hwen, h.state]
    rfl
  rw [h.current] at haddr
  refine ⟨hin, ?_, hvalid, ?_, ?_⟩
  · rw [hnext]
    simp [ListReverse.next, ListReverse.control, ListReverse.asks, h.state]
  · have hdue : DataBus.due (JYDSoC.next c i s).bus = _ := DataBus.due_next hvalid hread
    have htarget : targetSel cur = .dram := targetSel_of_inDram (d.inDram hregion)
    rw [hdue, haddr, DataBus.answer, htarget]
    simp only [SimpleBusMem.read_eq, d.inRange hregion, if_true, h.mem]
    rfl
  · rw [h.holds.mem_kept (by simp [h.state]), h.mem]

theorem AtSent.step (h : AtSent d e op m S cur prev s) :
    AtAnswer d e op m S cur prev (JYDSoC.next c i s) := by
  have hin := h.toInOp.stay hregion (i := i) (by simp [h.state]) (by simp [h.state])
  have hnext := h.holds.listReverse_next (i := i)
  -- the response of this cycle would belong to an older request
  have hnone : (DataBus.resp s.bus).valid = false := by
    have hwaits : EXU.waits s.core.exu = true := by
      simp [EXU.waits, ListReverse.waits, h.state]
    have hpipe := h.holds.consistent.port.waits hwaits
    rw [h.holds.consistent.port.inStep.resp_valid]
    simpa [h.sent] using hpipe
  refine ⟨hin, ?_, ?_, ?_, ?_⟩
  · rw [hnext]
    simp [ListReverse.next, ListReverse.control, h.state, hnone]
  · rw [hin.holds.consistent.port.inStep.resp_valid]
    exact h.sent
  · have hbits : (DataBus.resp (JYDSoC.next c i s).bus).bits = DataBus.due s.bus :=
      DataBus.resp_next_bits
    exact hbits.trans h.due
  · rw [h.holds.mem_kept (by simp [h.state]), h.mem]

theorem AtAnswer.step (h : AtAnswer d e op m S cur prev s) :
    AtStore d e op m S cur prev (JYDSoC.next c i s) := by
  have hin := h.toInOp.stay hregion (i := i) (by simp [h.state]) (by simp [h.state])
  have hnext := h.holds.listReverse_next (i := i)
  refine ⟨hin, ?_, ?_, ?_, ?_⟩
  · rw [hnext]
    simp [ListReverse.next, ListReverse.control, h.state, h.valid]
  · rw [hnext]
    simpa [ListReverse.next, ListReverse.control, h.state, h.valid] using h.bits
  · rw [hnext]
    simpa [ListReverse.next, ListReverse.control, h.state, h.valid] using h.bits
  · rw [h.holds.mem_kept (by simp [h.state]), h.mem]

/-- The store relinks the node; the successor, if there is one, is a different node. -/
theorem AtStore.step (h : AtStore d e op m S cur prev s)
    (hsucc : m (cellOf c cur) ≠ 0#32 →
      d.region (m (cellOf c cur)) ∧ cellOf c (m (cellOf c cur)) ≠ cellOf c cur) :
    AtDone d e op m S cur prev (JYDSoC.next c i s) := by
  have hin := h.toInOp.stay hregion (i := i) (by simp [h.state]) (by simp [h.state])
  have hnext := h.holds.listReverse_next (i := i)
  refine ⟨hin, ?_, ?_, ?_, ?_, ?_, ?_⟩
  · rw [hnext]
    simp [ListReverse.next, ListReverse.control, ListReverse.asks, h.state]
  · rw [hnext]
    simpa [ListReverse.next, ListReverse.control, ListReverse.asks, h.state] using h.next
  · rw [hnext]
    simp [ListReverse.next, ListReverse.control, ListReverse.asks, h.state, h.next]
  · rw [hnext]
    simp only [ListReverse.next, ListReverse.control, ListReverse.asks, h.state, h.next, h.current]
    cases EXU.isListReverseLoop op <;> by_cases hz : m (cellOf c cur) = 0#32 <;> simp [hz]
  · intro hhit hz
    rcases hsucc hz with ⟨hreg, hcell⟩
    have hne : m (cellOf c cur) ≠ cur := fun heq => hcell (by rw [heq])
    rw [hnext] at hhit
    simp only [ListReverse.next, ListReverse.control, ListReverse.asks, h.state, h.next,
      h.current] at hhit
    have hread := h.holds.readData_of_hit (i := i) (by simp [h.state])
      (by rw [h.query]; exact hreg) (by simpa [hne] using hhit)
    rw [hread, h.query, h.mem]
  · rw [h.holds.mem_stored h.state (by rw [h.current]; exact hregion), h.mem, h.current, h.previous]

end Step

end Op

end JYDSoC
end Soc
end Jyd
