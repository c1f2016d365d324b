import Jyd.Core.DCacheLines
import Jyd.Soc.Responses

/-!
# Coherence — the data cache and the data RAM

A store writes its line in the cycle of its request, a list-reversal store one
cycle later, and a missed load refills its line two cycles after its request unless
the store generation has moved.  Along every run whose RAM accesses stay in one fit
region, what hits in the cache is the word in the RAM.
-/

namespace Jyd
namespace Soc
namespace JYDSoC

open Hdl Jyd.Core JYDPeripheralBridge

/-! ## Regions of the data RAM -/

/-- A set of RAM addresses that the trimmed tags tell apart. -/
structure RamRegion (sizeInByte : ℕ) where
  region : Word → Prop
  inDram : ∀ {a}, region a → EXU.inDramRegion a = true
  inRange : ∀ {a}, region a → SimpleBusMem.wordIndex sizeInByte a < sizeInByte / 4
  same_cell : ∀ {a b}, region a → region b → DCache.indexOf a = DCache.indexOf b →
    DCache.tagOf a = DCache.tagOf b →
    SimpleBusMem.wordIndex sizeInByte a = SimpleBusMem.wordIndex sizeInByte b
  same_index : ∀ {a b}, region a → region b →
    SimpleBusMem.wordIndex sizeInByte a = SimpleBusMem.wordIndex sizeInByte b →
    DCache.indexOf a = DCache.indexOf b

def RamRegion.geometry {sizeInByte : ℕ} (d : RamRegion sizeInByte) :
    Geometry Word (BitVec 10) (BitVec 7) ℕ where
  index := DCache.indexOf
  tag := DCache.tagOf
  cell := SimpleBusMem.wordIndex sizeInByte
  region := d.region
  same_cell := d.same_cell
  same_index := d.same_index

/-- The bridge routes the whole RAM window to the RAM. -/
theorem targetSel_of_inDram {a : Word} (h : EXU.inDramRegion a = true) : targetSel a = .dram := by
  have hbits : a.getLsbD 21 = false ∧ a.getLsbD 20 = true := by
    have h' : a.extractLsb' 20 2 = 0b01#2 := by simpa [EXU.inDramRegion] using h
    have h20 := congrArg (fun x => x.getLsbD 0) h'
    have h21 := congrArg (fun x => x.getLsbD 1) h'
    simp only [BitVec.getLsbD_extractLsb'] at h20 h21
    exact ⟨by simpa using h21, by simpa using h20⟩
  have hout : ∀ start : Word, start.getLsbD 20 = false → inRng a start = false := by
    intro start hs
    simp [inRng, hbits.1, hbits.2, hs, -BitVec.getLsbD_eq_getElem]
  simp [targetSel, hout LED (by decide), hout SEG (by decide), hout CNT (by decide),
    hout UART (by decide)]

variable {c : Config} {d : RamRegion c.dramSizeInByte} {s : Regs} {i : In} {expected : BitVec 15}

/-! ## Who writes memory -/

/-- The two kinds of stores that reach the data bus. -/
inductive WriteKind (c : Config) (i : In) (s : Regs) : Prop
  | store (typ : EXU.isTypStore s.core.exuPipe.bits = true)
      (valid : CPUCore.exuInValid s.core = true)
      (addr : (busReq c i s).req.addr = EXU.reg1AddImm s.core.exuPipe.bits)
      (data : (busReq c i s).req.wdata = EXU.memWData (CPUCore.exuIn s.core (coreIn c i s)))
      (mask : (busReq c i s).req.wmask = EXU.memWMask s.core.exuPipe.bits)
  | listReverse (kind : EXU.isListReverse s.core.exuPipe.bits = true)
      (state : s.core.exu.listReverse.listReverseState = .storeRequest)
      (addr : (busReq c i s).req.addr = s.core.exu.listReverse.listReverseCurrent)
      (data : (busReq c i s).req.wdata = s.core.exu.listReverse.listReversePrevious)
      (mask : (busReq c i s).req.wmask = 0b1111#4)

theorem writeKind (hf : FrontInv c s expected) (hv : (busReq c i s).valid = true)
    (hw : (busReq c i s).req.wen = true) : WriteKind c i s := by
  have hocc : EXU.Occupied s.core.exu (CPUCore.exuInValid s.core) s.core.exuPipe.bits := hf.exu
  -- only EXU's own store and the list controller drive the write enable
  simp only [busReq, CPUCore.dramReq, EXU.memReq, CPUCore.exuIn] at hw
  cases hn : EXU.isNumericDfaStep s.core.exuPipe.bits with
  | true => simp [hn] at hw
  | false =>
    cases hl : EXU.isListReverse s.core.exuPipe.bits with
    | true =>
      simp only [hn, hl, if_true, Bool.false_eq_true, if_false] at hw
      have hstate : s.core.exu.listReverse.listReverseState = .storeRequest := by
        simpa [EXU.listReverseStoreRequest] using hw
      refine WriteKind.listReverse hl hstate ?_ ?_ ?_ <;>
        simp [busReq, CPUCore.dramReq, EXU.memReq, CPUCore.exuIn, hn, hl, hw]
    | false =>
      cases hx : EXU.isXmsum s.core.exuPipe.bits with
      | true => simp [hn, hl, hx] at hw
      | false =>
        simp only [hn, hl, hx, Bool.false_eq_true, if_false, Bool.not_false,
          Bool.true_and] at hw
        have hlidle := hocc.listReverse_idle hl
        have hreq := EXU.memReqValid_of_idle (i := CPUCore.exuIn s.core (coreIn c i s))
          hlidle (hocc.xmsum_idle hx) (hocc.numericDfa_idle hn)
        have hno : EXU.listReverseStoreRequest s.core.exu = false := by
          rw [EXU.listReverseStoreRequest, hlidle]
          rfl
        have hvalid : CPUCore.exuInValid s.core = true := by
          have hv' : EXU.memReqValid s.core.exu (CPUCore.exuIn s.core (coreIn c i s)) = true :=
            hv
          rw [hreq] at hv'
          simp only [CPUCore.exuIn, Bool.and_eq_true] at hv'
          exact hv'.1.2
        refine WriteKind.store hw hvalid ?_ ?_ ?_ <;>
          simp [busReq, CPUCore.dramReq, EXU.memReq, CPUCore.exuIn, hn, hl, hx, hno]

/-- The cycle writes the data RAM. -/
def writesRam (c : Config) (i : In) (s : Regs) : Bool :=
  (busReq c i s).valid && targetSel (busReq c i s).req.addr == .dram && (busReq c i s).req.wen

theorem mem_next_of_not_writesRam (h : writesRam c i s = false) :
    (next c i s).bus.dram.mem = s.bus.dram.mem := by
  have hmem : (next c i s).bus.dram.mem = _ := DataBus.mem_next
  have h' : ((busReq c i s).valid && targetSel (busReq c i s).req.addr == .dram &&
      (busReq c i s).req.wen) = false := h
  rw [hmem, h']
  rfl

/-! ## The list-reversal write that is one cycle behind -/

/-- The controller is done and its store is not yet in the cache. -/
def pendingStore (r : CPUCore.Regs) : Bool :=
  EXU.isListReverseStep r.exuPipe.bits && r.exu.listReverse.listReverseState == .done &&
    r.exu.listReverse.listReverseStepStoreCommitted

/-- The lines once the pending write has landed. -/
def settled (r : CPUCore.Regs) (L : BitVec 10 → CacheLine (BitVec 7) Word) :
    BitVec 10 → CacheLine (BitVec 7) Word :=
  if pendingStore r then
    Function.update L (DCache.indexOf r.exu.listReverse.listReverseCurrent)
      ⟨true, DCache.tagOf r.exu.listReverse.listReverseCurrent,
        r.exu.listReverse.listReversePrevious⟩
  else L

theorem storeUpdate_eq : CPUCore.storeUpdate s.core (coreIn c i s) =
    ((busReq c i s).valid && EXU.cacheableStore s.core.exuPipe.bits) := by
  rw [← dramReqFire_eq]
  rfl

theorem fullUpdate_eq : CPUCore.fullUpdate s.core (coreIn c i s) = pendingStore s.core := rfl

/-- A store becomes pending in the cycle of its request and in no other. -/
theorem listReverse_pending {l : ListReverse.Regs} {j : ListReverse.In}
    (hfire : l.listReverseState = .done → j.outFire = true)
    (hstate : (ListReverse.next l j).listReverseState = .done)
    (hcommitted : (ListReverse.next l j).listReverseStepStoreCommitted = true) :
    l.listReverseState = .storeRequest ∧ j.memReqFire = true := by
  have hstate' : (ListReverse.control l j).listReverseState = .done := hstate
  have hcommitted' : (ListReverse.control l j).listReverseStepStoreCommitted = true := hcommitted
  cases hs : l.listReverseState with
  | idle =>
    cases hv : (j.valid && j.isListReverse) with
    | false => simp [ListReverse.control, hs, hv] at hstate'
    | true =>
      simp only [ListReverse.control, hs, beq_self_eq_true, Bool.true_and, hv, if_true,
        ListReverse.start] at hstate' hcommitted'
      split at hcommitted'
      · cases hcommitted'
      · split at hcommitted' <;> cases hcommitted'
  | lookup => simp [ListReverse.control, hs] at hstate'
  | lookupResolve =>
    simp [ListReverse.control, hs] at hstate'
    split at hstate' <;> cases hstate'
  | loadRequest => cases hf : j.memReqFire <;> simp [ListReverse.control, hs, hf] at hstate'
  | loadResponse => cases hv : j.memResp.valid <;> simp [ListReverse.control, hs, hv] at hstate'
  | storeRequest =>
    cases hf : j.memReqFire with
    | false => simp [ListReverse.control, hs, hf] at hstate'
    | true => exact ⟨rfl, rfl⟩
  | done => simp [ListReverse.control, hs, hfire hs] at hstate'

/-- The request of a pending store leaves its node and its predecessor in place. -/
theorem listReverse_store_next {l : ListReverse.Regs} {j : ListReverse.In}
    (hs : l.listReverseState = .storeRequest) (hf : j.memReqFire = true) :
    (ListReverse.next l j).listReverseState = .done ∧
      (ListReverse.next l j).listReverseStepStoreCommitted = true ∧
      (ListReverse.next l j).listReverseCurrent = l.listReverseCurrent ∧
      (ListReverse.next l j).listReversePrevious = l.listReversePrevious := by
  simp [ListReverse.next, ListReverse.control, hs, hf]

/-- A finished controller hands its result over at once. -/
theorem outFire_of_done (hf : FrontInv c s expected)
    (hs : s.core.exu.listReverse.listReverseState = .done) :
    EXU.outFire s.core.exu (CPUCore.exuIn s.core (coreIn c i s)) = true := by
  have hocc : EXU.Occupied s.core.exu (CPUCore.exuInValid s.core) s.core.exuPipe.bits := hf.exu
  rcases hocc.listReverse (by simp [hs]) with ⟨hv, hk⟩
  have hstep : EXU.isNumericDfaStep s.core.exuPipe.bits = false := by
    simp [EXU.isNumericDfaStep, EXU.not_numericDfa_of_listReverse (hf.decoded hv) hk]
  have hout : CPUCore.exuOutReady s.core = true := CPUCore.exuOutReady_eq s.core
  simp [EXU.outFire, EXU.outValid, CPUCore.exuIn, hstep, hk, EXU.listReverseDone, hs, hout]

theorem pendingStore_next (hf : FrontInv c s expected)
    (h : pendingStore (next c i s).core = true) :
    s.core.exu.listReverse.listReverseState = .storeRequest ∧ (busReq c i s).valid = true ∧
      (busReq c i s).req.wen = true := by
  have hocc : EXU.Occupied s.core.exu (CPUCore.exuInValid s.core) s.core.exuPipe.bits := hf.exu
  simp only [pendingStore, Bool.and_eq_true, beq_iff_eq] at h
  have hpend := listReverse_pending (fun hs => outFire_of_done (i := i) hf hs) h.1.2 h.2
  rcases hocc.listReverse (by simp [hpend.1]) with ⟨hv, hk⟩
  have hstep : EXU.isNumericDfaStep s.core.exuPipe.bits = false := by
    simp [EXU.isNumericDfaStep, EXU.not_numericDfa_of_listReverse (hf.decoded hv) hk]
  refine ⟨hpend.1, ?_, ?_⟩
  · rw [← dramReqFire_eq]
    exact hpend.2
  · simp [busReq, CPUCore.dramReq, EXU.memReq, CPUCore.exuIn, hstep, hk,
      EXU.listReverseStoreRequest, hpend.1]

/-! ## The invariant -/

/-- The RAM accesses of this cycle stay in the region. -/
structure Disciplined (d : RamRegion c.dramSizeInByte) (i : In) (s : Regs) : Prop where
  store : (busReq c i s).valid = true → (busReq c i s).req.wen = true →
    targetSel (busReq c i s).req.addr = .dram ∨ EXU.isListReverse s.core.exuPipe.bits = true →
    d.region (busReq c i s).req.addr
  load : (busReq c i s).valid = true → EXU.cacheableLoad s.core.exuPipe.bits = true →
    d.region (busReq c i s).req.addr

/-- The word that the RAM holds behind an address of the region. -/
def ramWord (c : Config) (s : Regs) (addr : Word) : Word :=
  s.bus.dram.mem (SimpleBusMem.wordIndex c.dramSizeInByte addr)

/-- A cacheable load has just been requested. -/
structure LoadInLSU (d : RamRegion c.dramSizeInByte) (s : Regs) : Prop where
  region : d.region s.core.lsuPipe.bits.destAddr
  target : s.bus.perip.respSelPipe0 = .dram
  word : s.bus.dram.pipe.respDataPipe0 = ramWord c s s.core.lsuPipe.bits.destAddr
  epoch : s.core.lsuPipe.bits.dcacheStoreEpoch = s.core.dcacheStoreEpoch
  hit : s.core.lsuPipe.bits.dcacheHit = true →
    s.core.lsuPipe.bits.lateLoadData = s.bus.dram.pipe.respDataPipe0 ∧
      DCache.readData s.core.dcache = s.bus.dram.pipe.respDataPipe0

/-- The response of a cacheable load is here; it is current if no store came in between. -/
structure LoadInWBU (d : RamRegion c.dramSizeInByte) (s : Regs) : Prop where
  region : d.region s.core.wbuPipe.bits.memAddr
  target : s.bus.perip.respSelPipe1 = .dram
  fresh : s.core.wbuPipe.bits.dcacheStoreEpoch = s.core.dcacheStoreEpoch →
    s.bus.dram.pipe.respDataReg = ramWord c s s.core.wbuPipe.bits.memAddr
  hit : s.core.wbuPipe.bits.dcacheHit = true →
    s.core.wbuPipe.bits.lsuResult = s.bus.dram.pipe.respDataReg

structure CacheInv (d : RamRegion c.dramSizeInByte) (s : Regs) : Prop where
  block : d.geometry.Coherent
    (settled s.core (DCache.lines s.core.dcache (DCache.blockData s.core.dcache))) s.bus.dram.mem
  late : d.geometry.Coherent
    (settled s.core (DCache.lines s.core.dcache (DCache.lateReadData s.core.dcache))) s.bus.dram.mem
  idle : s.core.lsuPipe.valid = true → EXU.busy s.core.exu = false
  lsu : s.core.lsuPipe.valid = true → s.core.lsuPipe.bits.cacheableLoad = true → LoadInLSU d s
  wbu : s.core.wbuPipe.valid = true → s.core.wbuPipe.bits.cacheableLoad = true → LoadInWBU d s

theorem resp_bits_of_dram (h : s.bus.perip.respSelPipe1 = .dram) :
    (DataBus.resp s.bus).bits = s.bus.dram.pipe.respDataReg := by
  simp [DataBus.resp, h, DataBus.respOf, RespPipe.resp]

/-! ## Lines across a clock edge -/

section Lines

variable {data data' : BitVec 10 → Word}

/-- The lines with the words `data`, once a pending write has landed, agree with the RAM. -/
def Settled (d : RamRegion c.dramSizeInByte) (s : Regs) (data : BitVec 10 → Word) : Prop :=
  d.geometry.Coherent (settled s.core (DCache.lines s.core.dcache data)) s.bus.dram.mem

theorem mem_next_of_store (hv : (busReq c i s).valid = true) (hwen : (busReq c i s).req.wen = true)
    (htarget : targetSel (busReq c i s).req.addr = .dram) :
    (next c i s).bus.dram.mem =
      SimpleBusMem.write c.dramSizeInByte s.bus.dram.mem (busReq c i s).req := by
  have hmem : (next c i s).bus.dram.mem = _ := DataBus.mem_next
  rw [hmem, hv, htarget, hwen]
  rfl

theorem not_pending_next (hf : FrontInv c s expected)
    (hidle : s.core.exu.listReverse.listReverseState = .idle) :
    pendingStore (next c i s).core = false := Bool.eq_false_iff.mpr fun hp => by
  rw [(pendingStore_next hf hp).1] at hidle
  cases hidle

theorem not_pending_of_idle (h : s.core.exu.listReverse.listReverseState = .idle) :
    pendingStore s.core = false := by
  simp [pendingStore, h]

/-- EXU keeps its instruction while the controller asks for the store. -/
theorem pendingStore_of_request (hf : FrontInv c s expected)
    (hk : EXU.isListReverse s.core.exuPipe.bits = true)
    (hs : s.core.exu.listReverse.listReverseState = .storeRequest) :
    pendingStore (next c i s).core = true := by
  have hocc : EXU.Occupied s.core.exu (CPUCore.exuInValid s.core) s.core.exuPipe.bits := hf.exu
  have hv := (hocc.listReverse (by simp [hs])).1
  have hasks : ListReverse.asks s.core.exu.listReverse = true := by simp [ListReverse.asks, hs]
  have hfire : EXU.memReqFire s.core.exu (CPUCore.exuIn s.core (coreIn c i s)) = true := by
    have hreq := EXU.Occupied.memReqValid_of_listReverse
      (i := CPUCore.exuIn s.core (coreIn c i s)) hf.exu (hf.decoded hv) hk
    rw [EXU.memReqFire, hreq, hasks]
    rfl
  have hstay := CPUCore.exu_stays (i := coreIn c i s) hf.exu hv
    (EXU.Occupied.not_inFire_of_access (i := CPUCore.exuIn s.core (coreIn c i s)) hf.exu hf.decoded
      (Or.inl (by simp [EXU.asks, hasks])))
  have hstep : EXU.isListReverseStep s.core.exuPipe.bits = true := by
    rcases hf.decoded hv with ⟨j, hj⟩
    rw [hj] at hk ⊢
    exact hk
  have hnext := listReverse_store_next
    (j := EXU.listReverseIn s.core.exu (CPUCore.exuIn s.core (coreIn c i s))) hs hfire
  have hbits : (next c i s).core.exuPipe.bits = s.core.exuPipe.bits := hstay.2
  have hstate : (next c i s).core.exu.listReverse.listReverseState = .done := hnext.1
  have hcommitted : (next c i s).core.exu.listReverse.listReverseStepStoreCommitted = true :=
    hnext.2.1
  simp [pendingStore, hbits, hstep, hstate, hcommitted]

/-- The cache sees every store instruction that reaches the RAM. -/
theorem storeUpdate_of_ram_store (hdisc : Disciplined d i s) (hv : (busReq c i s).valid = true)
    (hwen : (busReq c i s).req.wen = true) (typ : EXU.isTypStore s.core.exuPipe.bits = true)
    (haddr : (busReq c i s).req.addr = EXU.reg1AddImm s.core.exuPipe.bits)
    (htarget : targetSel (busReq c i s).req.addr = .dram) :
    CPUCore.storeUpdate s.core (coreIn c i s) = true := by
  have hregion := d.inDram (hdisc.store hv hwen (Or.inl htarget))
  rw [haddr] at hregion
  simp [storeUpdate_eq, hv, EXU.cacheableStore, typ, hregion]

theorem dcache_next : (next c i s).core.dcache =
    DCache.next s.core.dcache (CPUCore.dcacheIn s.core (coreIn c i s)) := rfl

variable (hw : DCache.Written (CPUCore.dcacheIn s.core (coreIn c i s)) data data')

include hw

/-- The pending write lands, and nothing else happens. -/
theorem coherent_of_pending (hf : FrontInv c s expected) (hpend : pendingStore s.core = true)
    (h : Settled d s data) : Settled d (next c i s) data' := by
  have hocc : EXU.Occupied s.core.exu (CPUCore.exuInValid s.core) s.core.exuPipe.bits := hf.exu
  have hdone : s.core.exu.listReverse.listReverseState = .done := by
    simp only [pendingStore, Bool.and_eq_true, beq_iff_eq] at hpend
    exact hpend.1.2
  rcases hocc.listReverse (by simp [hdone]) with ⟨hv, hk⟩
  have hdec := hf.decoded hv
  -- the line is written in the cycle after the store, in which no request goes out
  have hno : (busReq c i s).valid = false := by
    have hreq := EXU.Occupied.memReqValid_of_listReverse
      (i := CPUCore.exuIn s.core (coreIn c i s)) hf.exu hdec hk
    refine hreq.trans ?_
    rw [ListReverse.asks, hdone]
    rfl
  have hstore : CPUCore.storeUpdate s.core (coreIn c i s) = false := by
    rw [storeUpdate_eq, hno, Bool.false_and]
  have hmem : (next c i s).bus.dram.mem = s.bus.dram.mem :=
    DataBus.mem_next_of_read (by simp [hno])
  have hnext : pendingStore (next c i s).core = false := Bool.eq_false_iff.mpr fun hp => by
    rw [(pendingStore_next hf hp).1] at hdone
    cases hdone
  have hlines := DCache.lines_of_update (r := s.core.dcache) hw hstore
    (by simp [CPUCore.dcacheIn, fullUpdate_eq, hpend]) rfl rfl
  rw [Settled, settled, if_pos hpend] at h
  rw [Settled, settled, if_neg (by simp [hnext]), hmem, dcache_next, hlines]
  simpa [CPUCore.dcacheIn, fullUpdate_eq, hpend] using h

/-- A store instruction writes the RAM and its line in the same cycle. -/
theorem coherent_of_store (hf : FrontInv c s expected) (hdisc : Disciplined d i s)
    (hstore : CPUCore.storeUpdate s.core (coreIn c i s) = true)
    (h : Settled d s data) : Settled d (next c i s) data' := by
  have hparts : (busReq c i s).valid = true ∧ EXU.isTypStore s.core.exuPipe.bits = true ∧
      EXU.inDramRegion (EXU.reg1AddImm s.core.exuPipe.bits) = true := by
    simpa [storeUpdate_eq, EXU.cacheableStore] using hstore
  rcases hparts with ⟨hv, htyp, hregion⟩
  have hmemreq : EXU.needMemReq s.core.exuPipe.bits = true := by simp [EXU.needMemReq, htyp]
  have hvalid := valid_of_request hf hv
  have hreq := request_of_needMemReq (i := i) hf hvalid hmemreq
  have hnolist := (not_accelerator_of_needMemReq hf hvalid hmemreq).2.1
  have hocc : EXU.Occupied s.core.exu (CPUCore.exuInValid s.core) s.core.exuPipe.bits := hf.exu
  have hidle := hocc.listReverse_idle hnolist
  have hwen : (busReq c i s).req.wen = true := hreq.2.trans htyp
  have htarget : targetSel (busReq c i s).req.addr = .dram := by
    rw [hreq.1]
    exact targetSel_of_inDram hregion
  have hin : d.region (busReq c i s).req.addr := hdisc.store hv hwen (Or.inl htarget)
  have hkind := writeKind hf hv hwen
  rw [Settled, settled, if_neg (by simp [not_pending_of_idle hidle])] at h
  have hnext := not_pending_next (i := i) hf hidle
  have hquery : CPUCore.dcacheQueryAddr s.core = (busReq c i s).req.addr := by
    simp [CPUCore.dcacheQueryAddr, EXU.dcacheQueryAddr, hnolist, hreq.1]
  cases hkind with
  | listReverse kind _ _ _ _ => exact absurd (hnolist.symm.trans kind) (by decide)
  | store _ _ haddr hdata hmask =>
    rw [Settled, settled, if_neg (by simp [hnext]), mem_next_of_store hv hwen htarget, dcache_next,
      DCache.lines_of_store hw hstore]
    have hindex : (CPUCore.dcacheIn s.core (coreIn c i s)).queryIndex =
        d.geometry.index (busReq c i s).req.addr := by
      rw [← hquery]
      rfl
    rw [hindex, SimpleBusMem.write_eq, if_pos (d.inRange hin)]
    refine h.update hin (fun x hx => Function.update_of_ne hx _ _) _ ?_
    intro hfull
    -- only a full-word store leaves a valid line
    have hmask' : EXU.memWMask s.core.exuPipe.bits = 0b1111#4 := by
      have hfull' : EXU.storeFull s.core.exu (CPUCore.exuIn s.core (coreIn c i s)) = true := hfull
      simp only [EXU.storeFull, Bool.and_eq_true, beq_iff_eq] at hfull'
      exact hfull'.2
    refine ⟨congrArg DCache.tagOf hquery, ?_⟩
    have hcell : d.geometry.cell (busReq c i s).req.addr =
        SimpleBusMem.wordIndex c.dramSizeInByte (busReq c i s).req.addr := rfl
    rw [hcell, Function.update_self, hmask, hdata, hmask', DCache.writeMasked_full]
    simp only [CPUCore.dcacheIn, hmask', DCache.writeMasked_full]

variable
  (hwbu : s.core.wbuPipe.valid = true → s.core.wbuPipe.bits.cacheableLoad = true → LoadInWBU d s)

include hwbu

/-- Without a store only a current response can enter the cache. -/
theorem coherent_refilled (hpend : pendingStore s.core = false)
    (hstore : CPUCore.storeUpdate s.core (coreIn c i s) = false)
    (h : d.geometry.Coherent (DCache.lines s.core.dcache data) s.bus.dram.mem) :
    d.geometry.Coherent (DCache.lines (next c i s).core.dcache data') s.bus.dram.mem := by
  have hupdate : (CPUCore.dcacheIn s.core (coreIn c i s)).update =
      CPUCore.wbuDcacheUpdate s.core := by
    simp [CPUCore.dcacheIn, CPUCore.dcacheStoreMutation, fullUpdate_eq, hpend, hstore]
  rw [dcache_next]
  cases hu : CPUCore.wbuDcacheUpdate s.core with
  | false =>
    rw [DCache.lines_of_no_write hw hstore (hupdate.trans hu)]
    exact h
  | true =>
    simp only [CPUCore.wbuDcacheUpdate, WBU.dcacheUpdate, Bool.and_eq_true, beq_iff_eq] at hu
    -- a refill is dropped unless its store generation is still the current one
    have hload := hwbu hu.1.1.1 hu.1.1.2
    have hu' : CPUCore.wbuDcacheUpdate s.core = true := by
      simp [CPUCore.wbuDcacheUpdate, WBU.dcacheUpdate, hu]
    have haddr : (CPUCore.dcacheIn s.core (coreIn c i s)).updateAddr =
        s.core.wbuPipe.bits.memAddr := by
      simp [CPUCore.dcacheIn, fullUpdate_eq, hpend]
    have hdata : (CPUCore.dcacheIn s.core (coreIn c i s)).updateData =
        s.bus.dram.pipe.respDataReg := by
      rw [← resp_bits_of_dram hload.target]
      simp only [CPUCore.dcacheIn, fullUpdate_eq, hpend, Bool.false_eq_true, if_false]
      rfl
    rw [DCache.lines_of_update hw hstore (hupdate.trans hu') rfl rfl, haddr, hdata]
    exact h.refill hload.region (hload.fresh hu.2)

theorem coherent_of_no_store (hf : FrontInv c s expected) (hdisc : Disciplined d i s)
    (hpend : pendingStore s.core = false)
    (hstore : CPUCore.storeUpdate s.core (coreIn c i s) = false)
    (h : Settled d s data) : Settled d (next c i s) data' := by
  rw [Settled, settled, if_neg (by simp [hpend])] at h
  have hrefilled := coherent_refilled hw hwbu hpend hstore h
  cases hwrite : ((busReq c i s).valid && (busReq c i s).req.wen) with
  | false =>
    have hnext : pendingStore (next c i s).core = false := Bool.eq_false_iff.mpr fun hp => by
      simp [(pendingStore_next hf hp).2] at hwrite
    have hmem : (next c i s).bus.dram.mem = s.bus.dram.mem := DataBus.mem_next_of_read hwrite
    rw [Settled, settled, if_neg (by simp [hnext]), hmem]
    exact hrefilled
  | true =>
    rcases (Bool.and_eq_true _ _).mp hwrite with ⟨hv, hwen⟩
    cases writeKind hf hv hwen with
    -- a store the cache did not see cannot have gone to the RAM
    | store typ hvalid haddr _ _ =>
      have hmem : (next c i s).bus.dram.mem = s.bus.dram.mem := by
        refine mem_next_of_not_writesRam (Bool.eq_false_iff.mpr fun hram => ?_)
        simp only [writesRam, Bool.and_eq_true, beq_iff_eq] at hram
        have hseen := storeUpdate_of_ram_store hdisc hv hwen typ haddr hram.1.2
        exact Bool.false_ne_true (hstore.symm.trans hseen)
      have hmemreq : EXU.needMemReq s.core.exuPipe.bits = true := by simp [EXU.needMemReq, typ]
      have hidle := EXU.Occupied.listReverse_idle hf.exu
        (not_accelerator_of_needMemReq hf hvalid hmemreq).2.1
      rw [Settled, settled, if_neg (by simp [not_pending_next hf hidle]), hmem]
      exact hrefilled
    -- the RAM already has the new word, the line gets it in the next cycle
    | listReverse kind state haddr hdata hmask =>
      have hin : d.region (busReq c i s).req.addr := hdisc.store hv hwen (Or.inr kind)
      have htarget : targetSel (busReq c i s).req.addr = .dram :=
        targetSel_of_inDram (d.inDram hin)
      have hfire : EXU.memReqFire s.core.exu (CPUCore.exuIn s.core (coreIn c i s)) = true := by
        have hfire := dramReqFire_eq (c := c) (i := i) (s := s)
        rw [hv] at hfire
        exact hfire
      have hkept := (listReverse_store_next
        (j := EXU.listReverseIn s.core.exu (CPUCore.exuIn s.core (coreIn c i s))) state hfire).2.2
      have hcur : (next c i s).core.exu.listReverse.listReverseCurrent =
          (busReq c i s).req.addr := hkept.1.trans haddr.symm
      have hprev : (next c i s).core.exu.listReverse.listReversePrevious =
          (busReq c i s).req.wdata := hkept.2.trans hdata.symm
      rw [Settled, settled, if_pos (pendingStore_of_request hf kind state),
        mem_next_of_store hv hwen htarget, hcur, hprev, SimpleBusMem.write_eq, if_pos (d.inRange hin)]
      refine hrefilled.update hin (fun x hx => Function.update_of_ne hx _ _) _ ?_
      intro _
      refine ⟨rfl, ?_⟩
      have hcell : d.geometry.cell (busReq c i s).req.addr =
          SimpleBusMem.wordIndex c.dramSizeInByte (busReq c i s).req.addr := rfl
      rw [hcell, Function.update_self, hmask, DCache.writeMasked_full]

theorem coherent_next (hf : FrontInv c s expected) (hdisc : Disciplined d i s)
    (h : Settled d s data) : Settled d (next c i s) data' := by
  cases hpend : pendingStore s.core with
  | true => exact coherent_of_pending hw hf hpend h
  | false =>
    cases hstore : CPUCore.storeUpdate s.core (coreIn c i s) with
    | true => exact coherent_of_store hw hf hdisc hstore h
    | false => exact coherent_of_no_store hw hwbu hf hdisc hpend hstore h

end Lines

/-! ## Loads across a clock edge -/

theorem not_pending_of_not_busy (h : EXU.busy s.core.exu = false) : pendingStore s.core = false := by
  refine not_pending_of_idle ?_
  simp only [EXU.busy, Bool.or_eq_false_iff, bne_eq_false_iff_eq] at h
  exact h.1.1

theorem loadInLSU_next (h : CacheInv d s) (hf : FrontInv c s expected) (hdisc : Disciplined d i s)
    (hfire : completes c i s = true)
    (hload : EXU.cacheableLoad s.core.exuPipe.bits = true) : LoadInLSU d (next c i s) := by
  have htyp : s.core.exuPipe.bits.info.typ = .load := by
    simp only [EXU.cacheableLoad, EXU.isTypLoad, Bool.and_eq_true, beq_iff_eq] at hload
    exact hload.1.1.1
  have hmemreq : EXU.needMemReq s.core.exuPipe.bits = true := by
    simp [EXU.needMemReq, EXU.isTypLoad, htyp]
  have hnotstore : EXU.isTypStore s.core.exuPipe.bits = false := by simp [EXU.isTypStore, htyp]
  have hv : CPUCore.exuInValid s.core = true := CPUCore.exuInValid_of_inFire hfire
  have hreq := request_of_completes hfire hmemreq
  rcases request_of_needMemReq (i := i) hf hv hmemreq with ⟨haddr, hwen⟩
  rw [hnotstore] at hwen
  have hin : d.region (EXU.reg1AddImm s.core.exuPipe.bits) := haddr ▸ hdisc.load hreq hload
  have htarget : targetSel (busReq c i s).req.addr = .dram := by
    rw [haddr]
    exact targetSel_of_inDram (d.inDram hin)
  -- the list controller is idle, so no line is behind the RAM
  have hpend := not_pending_of_not_busy (not_busy_of_needMemReq hf hmemreq)
  have hmem : (next c i s).bus.dram.mem = s.bus.dram.mem :=
    DataBus.mem_next_of_read (by simp [hwen])
  have hword : (next c i s).bus.dram.pipe.respDataPipe0 =
      ramWord c s (EXU.reg1AddImm s.core.exuPipe.bits) := by
    have hdue : (next c i s).bus.dram.pipe.respDataPipe0 = _ :=
      DataBus.ramDue_next hreq hwen htarget
    rw [hdue, haddr, SimpleBusMem.read_eq, if_pos (d.inRange hin)]
    rfl
  have hlsu : (next c i s).core.lsuPipe.bits =
      EXU.outBits s.core.exu (CPUCore.exuIn s.core (coreIn c i s)) := by
    have hpipe : (next c i s).core.lsuPipe = _ := CPUCore.lsuPipe_next s.core (coreIn c i s)
    rw [hpipe]
  have hquery : CPUCore.dcacheQueryAddr s.core = EXU.reg1AddImm s.core.exuPipe.bits := by
    simp [CPUCore.dcacheQueryAddr, EXU.dcacheQueryAddr,
      (not_accelerator_of_needMemReq hf hv hmemreq).2.1]
  refine ⟨?_, htarget, ?_, ?_, ?_⟩
  · rw [hlsu]
    exact hin
  · rw [hword, hlsu, ramWord, ramWord, hmem]
    rfl
  · have hmut : CPUCore.dcacheStoreMutation s.core (coreIn c i s) = false := by
      simp [CPUCore.dcacheStoreMutation, storeUpdate_eq, fullUpdate_eq, hpend, EXU.cacheableStore,
        hnotstore]
    rw [hlsu]
    simp [next, CPUCore.next, hmut, EXU.outBits, CPUCore.exuIn]
  · intro hhit
    rw [hlsu] at hhit ⊢
    simp only [EXU.outBits, CPUCore.exuIn, hquery, hload, Bool.true_and, DCache.hit_iff] at hhit
    have hblock := h.block
    have hlate := h.late
    rw [settled, if_neg (by simp [hpend])] at hblock hlate
    rw [hword]
    refine ⟨?_, ?_⟩
    · simp only [EXU.outBits, CPUCore.exuIn, hload, if_true]
      exact hlate _ hin hhit.1 hhit.2
    · have hread : DCache.readData (next c i s).core.dcache =
          DCache.blockData s.core.dcache (DCache.indexOf (CPUCore.dcacheQueryAddr s.core)) := rfl
      rw [hread, hquery]
      exact hblock _ hin hhit.1 hhit.2

/-- Behind a load, an unchanged generation means that no store has passed. -/
theorem not_writesRam_of_epoch (h : CacheInv d s) (hf : FrontInv c s expected)
    (hdisc : Disciplined d i s) (hv : s.core.lsuPipe.valid = true)
    (hload : s.core.lsuPipe.bits.cacheableLoad = true)
    (hepoch : (next c i s).core.dcacheStoreEpoch = s.core.lsuPipe.bits.dcacheStoreEpoch) :
    writesRam c i s = false := by
  have hnomut : CPUCore.storeUpdate s.core (coreIn c i s) = false := by
    have hnext : (next c i s).core.dcacheStoreEpoch =
        if CPUCore.dcacheStoreMutation s.core (coreIn c i s) then !s.core.dcacheStoreEpoch
        else s.core.dcacheStoreEpoch := rfl
    rw [hnext, (h.lsu hv hload).epoch] at hepoch
    cases hm : CPUCore.storeUpdate s.core (coreIn c i s) with
    | false => rfl
    | true => simp [CPUCore.dcacheStoreMutation, hm] at hepoch
  refine Bool.eq_false_iff.mpr fun hw => ?_
  simp only [writesRam, Bool.and_eq_true, beq_iff_eq] at hw
  rcases hw with ⟨⟨hreq, htarget⟩, hwen⟩
  cases writeKind hf hreq hwen with
  | store typ _ haddr _ _ =>
    have hseen := storeUpdate_of_ram_store hdisc hreq hwen typ haddr htarget
    exact Bool.false_ne_true (hnomut.symm.trans hseen)
  | listReverse _ state _ _ _ =>
    have hidle := h.idle hv
    simp [EXU.busy, state] at hidle

theorem loadInWBU_next (h : CacheInv d s) (hf : FrontInv c s expected) (hdisc : Disciplined d i s)
    (hv : s.core.lsuPipe.valid = true) (hload : s.core.lsuPipe.bits.cacheableLoad = true) :
    LoadInWBU d (next c i s) := by
  have hlsu := h.lsu hv hload
  have hwbu : (next c i s).core.wbuPipe =
      ⟨s.core.lsuPipe.valid, LSU.outBits s.core.lsuPipe (DCache.readData s.core.dcache)⟩ :=
    CPUCore.wbuPipe_next s.core (coreIn c i s)
  refine ⟨?_, hlsu.target, ?_, ?_⟩
  · rw [hwbu]
    exact hlsu.region
  · intro hepoch
    rw [hwbu] at hepoch
    have hmem := mem_next_of_not_writesRam
      (not_writesRam_of_epoch h hf hdisc hv hload hepoch.symm)
    have hreg : (next c i s).bus.dram.pipe.respDataReg = s.bus.dram.pipe.respDataPipe0 := rfl
    rw [hreg, hlsu.word, hwbu, ramWord, ramWord, hmem]
    rfl
  · intro hhit
    rw [hwbu] at hhit ⊢
    exact (hlsu.hit hhit).2

theorem CacheInv.next (h : CacheInv d s) (hf : FrontInv c s expected) (hdisc : Disciplined d i s) :
    CacheInv d (next c i s) where
  block := coherent_next (fun k => DCache.blockData_next k) h.wbu hf hdisc h.block
  late := coherent_next (fun k => DCache.lateData_next k) h.wbu hf hdisc h.late
  idle := by
    intro hv
    have hpipe : (JYDSoC.next c i s).core.lsuPipe = _ := CPUCore.lsuPipe_next s.core (coreIn c i s)
    rw [hpipe] at hv
    have hfire : completes c i s = true := (CPUCore.exuOutValid_eq hf.exu).symm.trans hv
    have hdec := hf.decoded (CPUCore.exuInValid_of_inFire hfire)
    exact (EXU.Occupied.vacant_next_of_inFire (i := CPUCore.exuIn s.core (coreIn c i s)) hf.exu hdec
      (CPUCore.exuOutReady_eq s.core) hfire).not_busy
  lsu := by
    intro hv hload
    have hpipe : (JYDSoC.next c i s).core.lsuPipe = _ := CPUCore.lsuPipe_next s.core (coreIn c i s)
    rw [hpipe] at hv hload
    exact loadInLSU_next h hf hdisc ((CPUCore.exuOutValid_eq hf.exu).symm.trans hv) hload
  wbu := by
    intro hv hload
    have hpipe : (JYDSoC.next c i s).core.wbuPipe = _ := CPUCore.wbuPipe_next s.core (coreIn c i s)
    rw [hpipe] at hv hload
    exact loadInWBU_next h hf hdisc hv hload

theorem cacheInv_of_reset (h : Reset s) : CacheInv d s := by
  have hc := h.core
  have hinvalid : ∀ data k, (settled s.core (DCache.lines s.core.dcache data) k).valid = false := by
    intro data k
    rw [settled, if_neg (by simp [not_pending_of_idle hc.exu.listReverseState])]
    simp [DCache.lines, DCache.lineValid, DCache.tagEntry, hc.tagMem]
  refine ⟨Geometry.coherent_of_invalid (hinvalid _), Geometry.coherent_of_invalid (hinvalid _),
    ?_, ?_, ?_⟩
  · simp [hc.lsuPipe]
  · simp [hc.lsuPipe]
  · simp [hc.wbuPipe]

end JYDSoC
end Soc
end Jyd
