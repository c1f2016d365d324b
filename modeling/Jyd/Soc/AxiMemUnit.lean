import Jyd.Hdl.Axi4
import Jyd.Hdl.LeadsTo
import Jyd.Hdl.Queue
import Mathlib.Data.Nat.Log

/-!
# AxiMemUnit — the simulation memory behind an AXI4 port

`AXI4MemUnit` keeps one small state machine for each channel.  A read burst is first
fetched into a queue of sixteen words and then sent; a write waits for its address and
its data, in any order, before it goes to the memory.  The address and data channels
return to idle when a response is valid, whether or not the master takes it.
-/

namespace Jyd
namespace Soc
namespace AXI4MemUnit

open Hdl Axi4

/-! ## Registers and wires -/

/-- `sARIdle`/`sARWait`, and the same for AW and W. -/
inductive ChannelState
  | idle
  | wait
  deriving DecidableEq, Repr

inductive RState
  | idle
  | waitMem
  | sendData
  deriving DecidableEq, Repr

inductive BState
  | idle
  | waitAddrOrData
  | waitMem
  | waitRdy
  deriving DecidableEq, Repr

structure Regs where
  arState : ChannelState
  rdAddrBegReg : Word
  arLen : BitVec 8
  rState : RState
  rdFIFO : Queue Word 16
  mem : ℕ → Word
  awState : ChannelState
  wrAddr : Word
  wState : ChannelState
  wrData : Word
  wrMask : BitVec 4
  bState : BState
  memWriteFinished : Bool

/-- The master's wires, and what the memory shows while its output is left undriven. -/
structure In where
  bus : Master
  undriven : Word

variable (sizeInByte : ℕ) (i : In) (r : Regs)

def curReadCount : BitVec 8 := BitVec.ofNat 8 r.rdFIFO.count

def rdAddrBeg : Word := if r.arState = .idle then i.bus.ar.bits.addr else r.rdAddrBegReg

def rdAddr : Word := rdAddrBeg i r + (curReadCount r).setWidth 32 <<< 2

def rvalid : Bool := r.rState == .sendData && decide (0 < r.rdFIFO.count)

def rlast : Bool := curReadCount r == 1#8

def bvalid : Bool := r.bState == .waitRdy

/-- The wires the unit drives; reset is released. -/
def slave : Slave where
  awready := r.awState == .idle
  wready := r.wState == .idle
  b := ⟨bvalid r, ⟨OKAY, 0⟩⟩
  arready := r.arState == .idle
  r := ⟨rvalid r, ⟨r.rdFIFO.items.headD 0, OKAY, rlast r, 0⟩⟩

/-- The word of `MaskedRdWrMem` behind an address. -/
def wordAddr (addr : Word) : ℕ := addr.toNat % 2 ^ Nat.clog 2 sizeInByte / 4

/-- The memory drives its output only when it is not writing. -/
def dataOut : Word :=
  if r.bState = .waitMem then i.undriven else r.mem (wordAddr sizeInByte (rdAddr i r))

def memWritePrepared : Bool := r.awState == .wait && r.wState == .wait

/-! ## One clock edge -/

def nextChannel (state : ChannelState) (valid done : Bool) : ChannelState :=
  match state with
  | .idle => if valid then .wait else .idle
  | .wait => if done then .idle else .wait

def nextRState : RState :=
  match r.rState with
  | .idle => if i.bus.ar.valid then .waitMem else .idle
  | .waitMem => if curReadCount r = r.arLen then .sendData else .waitMem
  | .sendData =>
    if curReadCount r = 0 then (if i.bus.ar.valid then .waitMem else .idle) else .sendData

def nextBState : BState :=
  match r.bState with
  | .idle => if i.bus.aw.valid || i.bus.w.valid then .waitAddrOrData else .idle
  | .waitAddrOrData => if memWritePrepared r then .waitMem else .waitAddrOrData
  | .waitMem => if r.memWriteFinished then .waitRdy else .waitMem
  | .waitRdy => if i.bus.bready then .idle else .waitRdy

def next : Regs where
  arState := nextChannel r.arState i.bus.ar.valid (rvalid r && rlast r)
  rdAddrBegReg := if arFire i.bus (slave r) then i.bus.ar.bits.addr else r.rdAddrBegReg
  arLen := if arFire i.bus (slave r) then i.bus.ar.bits.len else r.arLen
  rState := nextRState i r
  rdFIFO :=
    r.rdFIFO.next ⟨r.rState == .waitMem, dataOut sizeInByte i r⟩ (i.bus.rready && rvalid r)
  mem :=
    if r.bState = .waitMem then
      Function.update r.mem (wordAddr sizeInByte r.wrAddr)
        (writeMasked r.wrMask r.wrData (r.mem (wordAddr sizeInByte r.wrAddr)))
    else r.mem
  awState := nextChannel r.awState i.bus.aw.valid (bvalid r)
  wrAddr := if awFire i.bus (slave r) then i.bus.aw.bits.addr else r.wrAddr
  wState := nextChannel r.wState i.bus.w.valid (bvalid r)
  wrData := if wFire i.bus (slave r) then i.bus.w.bits.data else r.wrData
  wrMask := if wFire i.bus (slave r) then i.bus.w.bits.strb else r.wrMask
  bState := nextBState i r
  memWriteFinished := r.bState == .waitMem

structure Reset (r : Regs) : Prop where
  arState : r.arState = .idle
  rState : r.rState = .idle
  rdFIFO : r.rdFIFO.items = []
  awState : r.awState = .idle
  wState : r.wState = .idle
  bState : r.bState = .idle

def machine : Machine In Regs where
  init := Reset
  next := next sizeInByte

/-! ## Reads over a run -/

/-- No read is accepted while a data beat is offered, none asks for more words than the
queue holds, and no write is accepted while a response is offered. -/
structure Polite (i : In) (r : Regs) : Prop where
  read : arFire i.bus (slave r) = true → rvalid r = false ∧ i.bus.ar.bits.len.toNat < 16
  write : bvalid r = true → awFire i.bus (slave r) = false ∧ wFire i.bus (slave r) = false

section Run

variable {sizeInByte : ℕ} (R : Run (machine sizeInByte))

def logAt : ℕ → Log := R.observe Log.empty fun i r => Log.watch i.bus (slave r)

/-- The address of the memory port in cycle `u`, and the word it returns. -/
def addressAt (u : ℕ) : Word := rdAddr (R.input u) (R.state u)
def sampleAt (u : ℕ) : Word := dataOut sizeInByte (R.input u) (R.state u)

/-- The first `n` words fetched for a read. -/
def fetched (q : Read) (n : ℕ) : List Word :=
  (List.range n).map fun k => sampleAt R (q.start + 1 + k)

/-- The first `n` words are fetched from consecutive addresses. -/
def Addressed (q : Read) (n : ℕ) : Prop :=
  ∀ k < n, addressAt R (q.start + 1 + k) = q.ar.addr + BitVec.ofNat 32 (4 * k)

/-- The data beats are the words at the addresses of the burst, in order. -/
structure InAddressOrder (q : Read) : Prop where
  data : q.beats.map RData.data = fetched R q q.size
  address : Addressed R q q.size

@[simp] theorem length_fetched (q : Read) (n : ℕ) : (fetched R q n).length = n := by
  simp [fetched]

theorem fetched_succ (q : Read) (n : ℕ) :
    fetched R q (n + 1) = fetched R q n ++ [sampleAt R (q.start + 1 + n)] := by
  simp [fetched, List.range_succ]

/-- The `k`-th word of a read is being fetched. -/
structure Fetching (t : ℕ) (r : Regs) (q : Read) (k : ℕ) : Prop where
  beats : q.beats = []
  cycle : t = q.start + 1 + k
  progress : k ≤ q.ar.len.toNat
  short : q.ar.len.toNat < 16
  state : r.rState = .waitMem
  ar : r.arState = .wait
  arLen : r.arLen = q.ar.len
  addr : r.rdAddrBegReg = q.ar.addr
  items : r.rdFIFO.items = fetched R q k
  addressed : Addressed R q k

/-- All words of a read are fetched, and the queue holds those that have not been sent. -/
structure Sending (r : Regs) (q : Read) : Prop where
  short : q.ar.len.toNat < 16
  state : r.rState = .sendData
  items : r.rdFIFO.items = (fetched R q q.size).drop q.beats.length
  more : q.beats.length < q.size
  unmarked : ∀ beat ∈ q.beats, beat.last = false
  data : q.beats.map RData.data = (fetched R q q.size).take q.beats.length
  addressed : Addressed R q q.size
  -- the address channel may leave its state as soon as the last beat is offered
  ar : q.beats.length + 1 < q.size → r.arState = .wait

/-- No read is under way. -/
structure Quiet (r : Regs) : Prop where
  items : r.rdFIFO.items = []
  ar : r.arState = .idle
  state : r.rState ≠ .waitMem

inductive ReadPhase (t : ℕ) (r : Regs) (l : Log) : Prop
  | quiet (waiting : l.waiting = []) (h : Quiet r)
  | fetching (q : Read) (k : ℕ) (waiting : l.waiting = [q]) (h : Fetching R t r q k)
  | sending (q : Read) (waiting : l.waiting = [q]) (h : Sending R r q)

structure ReadInv (t : ℕ) (r : Regs) (l : Log) : Prop where
  cycle : l.cycle = t
  stray : l.stray = 0
  answered : ∀ q ∈ l.answered, q.Exact ∧ InAddressOrder R q
  phase : ReadPhase R t r l

variable {R} {t : ℕ} {i : In} {r : Regs} {q : Read} {k : ℕ}

/-! ### Wires -/

theorem rvalid_eq_false (h : r.rState ≠ .sendData ∨ r.rdFIFO.items = []) : rvalid r = false := by
  rcases h with h | h
  · simp [rvalid, h]
  · simp [rvalid, Queue.count, h]

theorem no_beat (h : rvalid r = false) : rFire i.bus (slave r) = false := by
  simp [rFire, slave, h]

theorem curReadCount_toNat {n : ℕ} (h : r.rdFIFO.count = n) (hn : n ≤ 16) :
    (curReadCount r).toNat = n := by
  rw [curReadCount, h, BitVec.toNat_ofNat]
  omega

/-- Outside a fetch the queue only loses the beat that is taken. -/
theorem items_next (hs : r.rState ≠ .waitMem) :
    (next sizeInByte i r).rdFIFO.items =
      if i.bus.rready && rvalid r then r.rdFIFO.items.tail else r.rdFIFO.items := by
  have henq : (r.rState == RState.waitMem) = false := by simpa using hs
  exact Queue.items_next_deq henq _

/-! ### Acceptance -/

namespace Quiet

theorem rvalid (h : Quiet r) : rvalid r = false := rvalid_eq_false (Or.inr h.items)

theorem arFire (h : Quiet r) : arFire i.bus (slave r) = i.bus.ar.valid := by
  simp [Axi4.arFire, slave, h.ar]

theorem items_next (h : Quiet r) : (next sizeInByte i r).rdFIFO.items = [] := by
  rw [AXI4MemUnit.items_next h.state, h.rvalid, Bool.and_false, h.items]
  rfl

theorem rState_next (h : Quiet r) :
    (next sizeInByte i r).rState = if i.bus.ar.valid then .waitMem else .idle := by
  have hcount : curReadCount r = 0 := by simp [curReadCount, Queue.count, h.items]
  cases hr : r.rState with
  | idle => simp only [next, nextRState, hr]
  | waitMem => exact absurd hr h.state
  | sendData => simp only [next, nextRState, hr, hcount, if_true]

theorem stay (h : Quiet r) (hv : i.bus.ar.valid = false) : Quiet (next sizeInByte i r) where
  items := h.items_next
  ar := by simp [next, nextChannel, h.ar, hv]
  state := by
    rw [h.rState_next, hv]
    simp

theorem accept (h : Quiet (R.state t)) (hv : (R.input t).bus.ar.valid = true)
    (hlen : (R.input t).bus.ar.bits.len.toNat < 16) :
    Fetching R (t + 1) (next sizeInByte (R.input t) (R.state t))
      ⟨t, (R.input t).bus.ar.bits, []⟩ 0 where
  beats := rfl
  cycle := rfl
  progress := Nat.zero_le _
  short := hlen
  state := by rw [h.rState_next, if_pos hv]
  ar := by simp [next, nextChannel, h.ar, hv]
  arLen := by simp [next, h.arFire, hv]
  addr := by simp [next, h.arFire, hv]
  items := h.items_next
  addressed := fun k hk => absurd hk (Nat.not_lt_zero k)

end Quiet

/-! ### Fetching -/

namespace Fetching

theorem rvalid (h : Fetching R t r q k) : rvalid r = false :=
  rvalid_eq_false (Or.inl (by simp [h.state]))

theorem arFire (h : Fetching R t r q k) : arFire i.bus (slave r) = false := by
  simp [Axi4.arFire, slave, h.ar]

theorem count (h : Fetching R t r q k) : r.rdFIFO.count = k := by
  rw [Queue.count, h.items, length_fetched]

theorem curReadCount (h : Fetching R t r q k) : (curReadCount r).toNat = k := by
  have hk := h.progress
  have hlen := h.short
  exact curReadCount_toNat h.count (by omega)

theorem items_next (h : Fetching R t (R.state t) q k) :
    (next sizeInByte (R.input t) (R.state t)).rdFIFO.items = fetched R q (k + 1) := by
  have hk := h.progress
  have hlen := h.short
  have hroom : (R.state t).rdFIFO.count < 16 := by
    rw [h.count]
    omega
  rw [fetched_succ, ← h.items, ← h.cycle]
  simp only [next, h.rvalid, Bool.and_false]
  exact Queue.items_next_enq (by simp [h.state]) hroom

theorem addressed_succ (h : Fetching R t (R.state t) q k) : Addressed R q (k + 1) := by
  intro j hj
  rcases Nat.lt_succ_iff_lt_or_eq.mp hj with hlt | rfl
  · exact h.addressed j hlt
  · have hlen := h.short
    have hj := h.progress
    rw [← h.cycle, addressAt, rdAddr, rdAddrBeg, if_neg (by simp [h.ar]), h.addr]
    congr 1
    apply BitVec.eq_of_toNat_eq
    simp only [BitVec.toNat_shiftLeft, BitVec.toNat_setWidth, BitVec.toNat_ofNat, h.curReadCount,
      Nat.shiftLeft_eq]
    omega

/-- The fetch ends with the word whose index is the length of the burst. -/
theorem rState_next (h : Fetching R t r q k) :
    (next sizeInByte i r).rState = if k = q.ar.len.toNat then .sendData else .waitMem := by
  have hmatch : AXI4MemUnit.curReadCount r = r.arLen ↔ k = q.ar.len.toNat := by
    rw [h.arLen, BitVec.toNat_eq, h.curReadCount]
  simp only [next, nextRState, h.state, hmatch]

theorem ar_next (h : Fetching R t r q k) : (next sizeInByte i r).arState = .wait := by
  simp [next, nextChannel, h.ar, h.rvalid]

theorem advance (h : Fetching R t (R.state t) q k) (hk : k ≠ q.ar.len.toNat) :
    Fetching R (t + 1) (next sizeInByte (R.input t) (R.state t)) q (k + 1) where
  beats := h.beats
  cycle := by
    have := h.cycle
    omega
  progress := by
    have := h.progress
    omega
  short := h.short
  state := by rw [h.rState_next, if_neg hk]
  ar := h.ar_next
  arLen := by simp [next, h.arFire, h.arLen]
  addr := by simp [next, h.arFire, h.addr]
  items := h.items_next
  addressed := h.addressed_succ

theorem complete (h : Fetching R t (R.state t) q k) (hk : k = q.ar.len.toNat) :
    Sending R (next sizeInByte (R.input t) (R.state t)) q := by
  have hsize : q.size = k + 1 := by rw [Read.size, hk]
  refine ⟨h.short, ?_, ?_, ?_, ?_, ?_, ?_, fun _ => h.ar_next⟩
  · rw [h.rState_next, if_pos hk]
  · rw [h.items_next, h.beats, hsize]
    rfl
  · rw [h.beats, hsize]
    exact Nat.succ_pos k
  · simp [h.beats]
  · simp [h.beats]
  · rw [hsize]
    exact h.addressed_succ

end Fetching

/-! ### Sending -/

namespace Sending

theorem count (h : Sending R r q) : r.rdFIFO.count = q.size - q.beats.length := by
  rw [Queue.count, h.items, List.length_drop, length_fetched]

theorem curReadCount (h : Sending R r q) :
    (curReadCount r).toNat = q.size - q.beats.length := by
  have hlen := h.short
  have hsize : q.size = q.ar.len.toNat + 1 := rfl
  exact curReadCount_toNat h.count (by omega)

theorem rvalid (h : Sending R r q) : rvalid r = true := by
  have hpos : 0 < q.size - q.beats.length := Nat.sub_pos_of_lt h.more
  simp [AXI4MemUnit.rvalid, h.state, h.count, hpos]

theorem rlast (h : Sending R r q) : rlast r = decide (q.beats.length + 1 = q.size) := by
  have hmore := h.more
  rw [AXI4MemUnit.rlast, Bool.eq_iff_iff, beq_iff_eq, decide_eq_true_eq, BitVec.toNat_eq,
    h.curReadCount]
  simp only [BitVec.toNat_ofNat]
  omega

theorem rFire (h : Sending R r q) : rFire i.bus (slave r) = i.bus.rready := by
  simp [Axi4.rFire, slave, h.rvalid]

theorem arFire (h : Sending R r q) (hp : Polite i r) : arFire i.bus (slave r) = false :=
  Bool.eq_false_iff.mpr fun hf => by simpa [(hp.read hf).1] using h.rvalid

theorem rState_next (h : Sending R r q) : (next sizeInByte i r).rState = .sendData := by
  have hne : ¬ AXI4MemUnit.curReadCount r = 0 := by
    intro hz
    have hcur := h.curReadCount
    have hmore := h.more
    rw [hz] at hcur
    simp at hcur
    omega
  simp only [next, nextRState, h.state]
  exact if_neg hne

theorem items_next (h : Sending R r q) :
    (next sizeInByte i r).rdFIFO.items =
      if i.bus.rready then r.rdFIFO.items.tail else r.rdFIFO.items := by
  rw [AXI4MemUnit.items_next (by simp [h.state]), h.rvalid, Bool.and_true]

theorem ar_next (h : Sending R r q) (hmore : q.beats.length + 1 < q.size) :
    (next sizeInByte i r).arState = .wait := by
  have hnot : ¬ q.beats.length + 1 = q.size := by omega
  simp [next, nextChannel, h.ar hmore, h.rlast, hnot]

theorem stall (h : Sending R r q) (hready : i.bus.rready = false) :
    Sending R (next sizeInByte i r) q where
  short := h.short
  state := h.rState_next
  items := by
    rw [h.items_next, hready]
    exact h.items
  more := h.more
  unmarked := h.unmarked
  data := h.data
  addressed := h.addressed
  ar := h.ar_next

/-- The read with the offered beat taken. -/
def taken (r : Regs) (q : Read) : Read := { q with beats := q.beats ++ [(slave r).r.bits] }

theorem bits_data (h : Sending R r q) :
    (fetched R q q.size).take (q.beats.length + 1) =
        (fetched R q q.size).take q.beats.length ++ [(slave r).r.bits.data] ∧
      (fetched R q q.size).drop (q.beats.length + 1) = r.rdFIFO.items.tail := by
  refine ⟨?_, ?_⟩
  · have hpos : 0 < r.rdFIFO.items.length := by
      have hc := h.count
      have hmore := h.more
      rw [Queue.count] at hc
      omega
    rw [List.take_add, ← h.items]
    cases hi : r.rdFIFO.items with
    | nil => simp [hi] at hpos
    | cons x rest => simp [slave, hi]
  · rw [h.items, List.tail_drop]

theorem data_taken (h : Sending R r q) :
    (taken r q).beats.map RData.data = (fetched R q q.size).take (q.beats.length + 1) := by
  rw [h.bits_data.1, ← h.data]
  simp [taken]

theorem send (h : Sending R r q) (hready : i.bus.rready = true)
    (hmore : q.beats.length + 1 < q.size) : Sending R (next sizeInByte i r) (taken r q) := by
  have hlen : (taken r q).beats.length = q.beats.length + 1 := by simp [taken]
  refine ⟨h.short, h.rState_next, ?_, ?_, ?_, ?_, h.addressed, fun _ => h.ar_next hmore⟩
  · rw [h.items_next, if_pos hready, hlen]
    exact h.bits_data.2.symm
  · rw [hlen]
    exact hmore
  · intro beat hb
    rcases List.mem_append.mp hb with hold | hnew
    · exact h.unmarked beat hold
    · have hnot : ¬ q.beats.length + 1 = q.size := by omega
      rw [List.mem_singleton.mp hnew]
      simp [slave, h.rlast, hnot]
  · rw [hlen]
    exact h.data_taken

theorem exact_taken (h : Sending R r q) (hend : q.beats.length + 1 = q.size) :
    (taken r q).Exact ∧ InAddressOrder R (taken r q) := by
  refine ⟨?_, ?_, h.addressed⟩
  · have hold : q.beats.map RData.last = List.replicate q.ar.len.toNat false := by
      have hlen : q.beats.length = q.ar.len.toNat := Nat.succ_injective hend
      rw [← hlen, List.eq_replicate_iff]
      refine ⟨List.length_map _, ?_⟩
      intro b hb
      obtain ⟨beat, hbeat, rfl⟩ := List.mem_map.mp hb
      exact h.unmarked beat hbeat
    rw [Read.Exact, taken, List.map_append, hold]
    simp [slave, h.rlast, hend]
  · rw [h.data_taken, hend]
    exact List.take_of_length_le (by simp)

theorem finish (h : Sending R r q) (hp : Polite i r) (hready : i.bus.rready = true)
    (hend : q.beats.length + 1 = q.size) : Quiet (next sizeInByte i r) := by
  refine ⟨?_, ?_, by simp [h.rState_next]⟩
  · rw [h.items_next, if_pos hready, ← h.bits_data.2]
    exact List.drop_of_length_le (by simp [hend])
  · cases har : r.arState with
    | wait => simp [next, nextChannel, har, h.rvalid, h.rlast, hend]
    | idle =>
      have hv : i.bus.ar.valid = false := by
        simpa [Axi4.arFire, slave, har] using h.arFire hp
      simp [next, nextChannel, har, hv]

end Sending

/-! ### One cycle, and all cycles -/

theorem log_succ (R : Run (machine sizeInByte)) (t : ℕ) :
    logAt R (t + 1) = (logAt R t).watch (R.input t).bus (slave (R.state t)) := rfl

theorem readInv_next (h : ReadInv R t (R.state t) (logAt R t))
    (hp : Polite (R.input t) (R.state t)) :
    ReadInv R (t + 1) (R.state (t + 1)) (logAt R (t + 1)) := by
  rw [R.step t, log_succ]
  show ReadInv R (t + 1) (next sizeInByte (R.input t) (R.state t)) _
  have hcycle : ((logAt R t).watch (R.input t).bus (slave (R.state t))).cycle = t + 1 := by
    rw [Log.watch, h.cycle]
  -- what the log gains in this cycle depends on where the one open burst is
  cases h.phase with
  | quiet waiting hq =>
    rw [Log.watch_of_no_beat (no_beat hq.rvalid)] at hcycle ⊢
    refine ⟨hcycle, h.stray, h.answered, ?_⟩
    cases hv : (R.input t).bus.ar.valid with
    | false =>
      refine ReadPhase.quiet ?_ (hq.stay hv)
      simp [waiting, hq.arFire, hv]
    | true =>
      -- a polite master asks for at most 16 words, so the burst fits in the queue
      refine ReadPhase.fetching _ 0 ?_ (hq.accept hv (hp.read (hq.arFire.trans hv)).2)
      simp [waiting, hq.arFire, hv, h.cycle]
  | fetching q k waiting hf =>
    rw [Log.watch_of_no_beat (no_beat hf.rvalid)] at hcycle ⊢
    have hwait : (logAt R t).waiting ++ (if arFire (R.input t).bus (slave (R.state t)) then
        [⟨(logAt R t).cycle, (R.input t).bus.ar.bits, []⟩] else []) = [q] := by
      simp [waiting, hf.arFire]
    refine ⟨hcycle, h.stray, h.answered, ?_⟩
    by_cases hk : k = q.ar.len.toNat
    · exact ReadPhase.sending q hwait (hf.complete hk)
    · exact ReadPhase.fetching q (k + 1) hwait (hf.advance hk)
  | sending q waiting hs =>
    -- the address channel may already be idle, but a polite master does not use it
    have har := hs.arFire hp
    cases hready : (R.input t).bus.rready with
    | false =>
      rw [Log.watch_of_no_beat (hs.rFire.trans hready)] at hcycle ⊢
      refine ⟨hcycle, h.stray, h.answered, ReadPhase.sending q ?_ (hs.stall hready)⟩
      simp [waiting, har]
    | true =>
      by_cases hend : q.beats.length + 1 = q.size
      -- the last beat moves the read to the answered ones
      · obtain ⟨hans, hwait, hstray⟩ :=
          Log.watch_of_last (hs.rFire.trans hready) har waiting hend
        refine ⟨hcycle, hstray.trans h.stray, ?_, ?_⟩
        · rw [hans]
          intro p hmem
          rcases List.mem_append.mp hmem with hold | hnew
          · exact h.answered p hold
          · rw [List.mem_singleton.mp hnew]
            exact hs.exact_taken hend
        · exact ReadPhase.quiet hwait (hs.finish hp hready hend)
      · obtain ⟨hans, hwait, hstray⟩ :=
          Log.watch_of_beat (hs.rFire.trans hready) har waiting hend
        refine ⟨hcycle, hstray.trans h.stray, ?_, ?_⟩
        · rw [hans]
          exact h.answered
        · have hmore := hs.more
          exact ReadPhase.sending _ hwait (hs.send hready (by omega))

theorem readInv (hp : ∀ t, Polite (R.input t) (R.state t)) (t : ℕ) :
    ReadInv R t (R.state t) (logAt R t) := by
  induction t with
  | zero =>
    have hr := R.init
    refine ⟨rfl, rfl, fun q hq => absurd hq List.not_mem_nil, ReadPhase.quiet rfl ?_⟩
    exact ⟨hr.rdFIFO, hr.arState, by simp [hr.rState]⟩
  | succ t ih => exact readInv_next ih (hp t)

/-! ## Writes over a run -/

/-- The request a channel has accepted and not yet seen answered. -/
def ChannelState.held : ChannelState → ℕ
  | .idle => 0
  | .wait => 1

@[simp] theorem ChannelState.held_idle : ChannelState.idle.held = 0 := rfl
@[simp] theorem ChannelState.held_wait : ChannelState.wait.held = 1 := rfl

/-- How the accepted addresses and data compare with the responses taken. -/
inductive WritePhase (r : Regs) (l : Log) : Prop
  | idle (state : r.bState = .idle) (aw : r.awState = .idle) (w : r.wState = .idle)
      (aws : l.aws = l.bs) (ws : l.ws = l.bs)
  | waitAddrOrData (state : r.bState = .waitAddrOrData) (aws : l.aws = l.bs + r.awState.held)
      (ws : l.ws = l.bs + r.wState.held)
  | waitMem (state : r.bState = .waitMem) (aw : r.awState = .wait) (w : r.wState = .wait)
      (aws : l.aws = l.bs + 1) (ws : l.ws = l.bs + 1)
  | waitRdy (state : r.bState = .waitRdy) (aws : l.aws = l.bs + 1) (ws : l.ws = l.bs + 1)

variable {l : Log}

/-- A channel holds one more request after a handshake. -/
theorem held_next (state : ChannelState) (valid : Bool) :
    (nextChannel state valid false).held = state.held + (valid && (state == .idle)).toNat := by
  cases state <;> cases valid <;> rfl

theorem no_response (h : r.bState ≠ .waitRdy) :
    bvalid r = false ∧ bFire i.bus (slave r) = false := by
  have hv : bvalid r = false := by simpa [bvalid] using h
  exact ⟨hv, by simp [bFire, slave, hv]⟩

/-- Outside a response, every handshake leaves its channel holding one request more. -/
theorem held_aw (h : bvalid r = false) :
    (next sizeInByte i r).awState.held = r.awState.held + (awFire i.bus (slave r)).toNat := by
  simp only [next, h]
  exact held_next r.awState _

theorem held_w (h : bvalid r = false) :
    (next sizeInByte i r).wState.held = r.wState.held + (wFire i.bus (slave r)).toNat := by
  simp only [next, h]
  exact held_next r.wState _

theorem awFire_of_wait (h : r.awState = .wait) : awFire i.bus (slave r) = false := by
  simp [awFire, slave, h]

theorem wFire_of_wait (h : r.wState = .wait) : wFire i.bus (slave r) = false := by
  simp [wFire, slave, h]

/-- A channel is idle after the response unless it takes the next request. -/
theorem nextChannel_done {state : ChannelState} {valid : Bool}
    (h : (valid && (state == .idle)) = false) : nextChannel state valid true = .idle := by
  cases state with
  | idle =>
    have hv : valid = false := by simpa using h
    simp [nextChannel, hv]
  | wait => rfl

theorem writePhase_next (h : WritePhase r l) (hp : Polite i r) :
    WritePhase (next sizeInByte i r) (l.watch i.bus (slave r)) := by
  cases h with
  | idle state aw w aws ws =>
    obtain ⟨hv, hfire⟩ := no_response (i := i) (show r.bState ≠ .waitRdy by simp [state])
    cases hreq : (i.bus.aw.valid || i.bus.w.valid) with
    | false =>
      obtain ⟨hawv, hwv⟩ := Bool.or_eq_false_iff.mp hreq
      refine WritePhase.idle ?_ ?_ ?_ ?_ ?_
      · simp [next, nextBState, state, hreq]
      · simp [next, nextChannel, aw, hawv]
      · simp [next, nextChannel, w, hwv]
      · simp [awFire, hawv, hfire, aws]
      · simp [wFire, hwv, hfire, ws]
    | true =>
      refine WritePhase.waitAddrOrData ?_ ?_ ?_
      · simp [next, nextBState, state, hreq]
      · simp [held_aw hv, hfire, aw, aws]
      · simp [held_w hv, hfire, w, ws]
  -- address and data may come in either order; each channel holds what it has
  | waitAddrOrData state aws ws =>
    obtain ⟨hv, hfire⟩ := no_response (i := i) (show r.bState ≠ .waitRdy by simp [state])
    cases hprep : memWritePrepared r with
    | false =>
      refine WritePhase.waitAddrOrData ?_ ?_ ?_
      · simp [next, nextBState, state, hprep]
      · simp [held_aw hv, hfire, aws, Nat.add_assoc]
      · simp [held_w hv, hfire, ws, Nat.add_assoc]
    | true =>
      have hch : r.awState = .wait ∧ r.wState = .wait := by
        simpa [memWritePrepared] using hprep
      refine WritePhase.waitMem ?_ ?_ ?_ ?_ ?_
      · simp [next, nextBState, state, hprep]
      · simp [next, nextChannel, hch.1, hv]
      · simp [next, nextChannel, hch.2, hv]
      · simp [awFire_of_wait hch.1, hfire, aws, hch.1]
      · simp [wFire_of_wait hch.2, hfire, ws, hch.2]
  | waitMem state aw w aws ws =>
    obtain ⟨hv, hfire⟩ := no_response (i := i) (show r.bState ≠ .waitRdy by simp [state])
    have haws : (l.watch i.bus (slave r)).aws = (l.watch i.bus (slave r)).bs + 1 := by
      simp [awFire_of_wait aw, hfire, aws]
    have hws : (l.watch i.bus (slave r)).ws = (l.watch i.bus (slave r)).bs + 1 := by
      simp [wFire_of_wait w, hfire, ws]
    cases hfin : r.memWriteFinished with
    | false =>
      refine WritePhase.waitMem ?_ ?_ ?_ haws hws
      · simp [next, nextBState, state, hfin]
      · simp [next, nextChannel, aw, hv]
      · simp [next, nextChannel, w, hv]
    | true =>
      refine WritePhase.waitRdy ?_ haws hws
      simp [next, nextBState, state, hfin]
  | waitRdy state aws ws =>
    have hv : bvalid r = true := by simp [bvalid, state]
    -- both channels are open again here, so only politeness keeps the count at one
    obtain ⟨haw, hw⟩ := hp.write hv
    have hfire : bFire i.bus (slave r) = i.bus.bready := by simp [bFire, slave, hv]
    cases hready : i.bus.bready with
    | false =>
      refine WritePhase.waitRdy ?_ ?_ ?_
      · simp [next, nextBState, state, hready]
      · simp [haw, hfire, hready, aws]
      · simp [hw, hfire, hready, ws]
    | true =>
      refine WritePhase.idle ?_ ?_ ?_ ?_ ?_
      · simp [next, nextBState, state, hready]
      · simp only [next, hv]
        exact nextChannel_done haw
      · simp only [next, hv]
        exact nextChannel_done hw
      · simp [haw, hfire, hready, aws]
      · simp [hw, hfire, hready, ws]

theorem writePhase (hp : ∀ t, Polite (R.input t) (R.state t)) (t : ℕ) :
    WritePhase (R.state t) (logAt R t) := by
  induction t with
  | zero =>
    have hr := R.init
    exact WritePhase.idle hr.bState hr.awState hr.wState rfl rfl
  | succ t ih =>
    rw [R.step t, log_succ]
    exact writePhase_next ih (hp t)

theorem wellServed (hp : ∀ t, Polite (R.input t) (R.state t)) (t : ℕ) :
    (logAt R t).WellServed := by
  have hr := readInv hp t
  have hw := writePhase hp t
  refine ⟨hr.stray, fun q hq => (hr.answered q hq).1, ?_, ?_, ?_⟩
  · intro q hq
    cases hr.phase with
    | quiet waiting _ => simp [waiting] at hq
    | fetching p k waiting hf =>
      obtain rfl : q = p := by simpa [waiting] using hq
      refine ⟨?_, ?_⟩
      · rw [hf.beats]
        exact Nat.succ_pos _
      · simp [hf.beats]
    | sending p waiting hs =>
      obtain rfl : q = p := by simpa [waiting] using hq
      exact ⟨hs.more, hs.unmarked⟩
  · cases hw <;> omega
  · cases hw <;> omega

/-! ## Progress -/

theorem reads_mono {t u : ℕ} (h : t ≤ u) : (logAt R t).reads ≤ (logAt R u).reads :=
  R.observe_mono _ _ Log.reads (fun _ _ _ => Log.reads_le_watch _ _ _) h

theorem aws_mono {t u : ℕ} (h : t ≤ u) : (logAt R t).aws ≤ (logAt R u).aws :=
  R.observe_mono _ _ Log.aws (fun _ _ _ => Log.aws_le_watch _ _ _) h

/-- Word `k` of a burst of `len + 1` words is being fetched. -/
structure FetchAt (len k : ℕ) (r : Regs) : Prop where
  state : r.rState = .waitMem
  ar : r.arState = .wait
  arLen : r.arLen.toNat = len
  count : r.rdFIFO.count = k
  progress : k ≤ len
  short : len < 16

/-- `n` words are waiting to be sent. -/
structure SendAt (n : ℕ) (r : Regs) : Prop where
  state : r.rState = .sendData
  count : r.rdFIFO.count = n

theorem sendAt_next {n : ℕ} (h : SendAt (n + 1) r) :
    SendAt (if i.bus.rready then n else n + 1) (next sizeInByte i r) := by
  have hvalid : rvalid r = true := by simp [rvalid, h.state, h.count]
  have hcur : (curReadCount r).toNat = n + 1 := by
    have hbound := r.rdFIFO.bound
    have hcount : r.rdFIFO.items.length = n + 1 := h.count
    exact curReadCount_toNat h.count (by omega)
  have hne : ¬ curReadCount r = 0 := by
    intro hz
    simp [hz] at hcur
  refine ⟨?_, ?_⟩
  · simp only [next, nextRState, h.state]
    exact if_neg hne
  · have hcount : r.rdFIFO.items.length = n + 1 := h.count
    rw [Queue.count, items_next (by simp [h.state]), hvalid, Bool.and_true]
    cases i.bus.rready with
    | false => exact hcount
    | true => simp [hcount]

theorem fetchAt_next {len k : ℕ} (h : FetchAt len k r) :
    if k = len then SendAt (len + 1) (next sizeInByte i r)
    else FetchAt len (k + 1) (next sizeInByte i r) := by
  have hprogress := h.progress
  have hshort := h.short
  have hvalid : rvalid r = false := rvalid_eq_false (Or.inl (by simp [h.state]))
  have hfire : arFire i.bus (slave r) = false := by simp [arFire, slave, h.ar]
  have hcur := curReadCount_toNat h.count (by omega)
  -- the queue's fill level doubles as the word counter of the burst
  have hmatch : curReadCount r = r.arLen ↔ k = len := by
    rw [BitVec.toNat_eq, hcur, h.arLen]
  have hcount : (next sizeInByte i r).rdFIFO.count = k + 1 := by
    have hitems : (next sizeInByte i r).rdFIFO.items =
        r.rdFIFO.items ++ [dataOut sizeInByte i r] := by
      simp only [next, hvalid, Bool.and_false]
      refine Queue.items_next_enq (by simp [h.state]) ?_
      rw [h.count]
      omega
    have hk : r.rdFIFO.items.length = k := h.count
    rw [Queue.count, hitems, List.length_append, hk, List.length_singleton]
  by_cases hk : k = len
  · rw [if_pos hk]
    refine ⟨?_, by rw [hcount, hk]⟩
    simp only [next, nextRState, h.state]
    exact if_pos (hmatch.mpr hk)
  · rw [if_neg hk]
    refine ⟨?_, ?_, ?_, hcount, by omega, hshort⟩
    · simp only [next, nextRState, h.state]
      exact if_neg fun he => hk (hmatch.mp he)
    · simp [next, nextChannel, h.ar, hvalid]
    · simp [next, hfire, h.arLen]

theorem sent (hready : R.Recurs fun i => i.bus.rready = true) (n : ℕ) :
    R.LeadsTo (SendAt n) (SendAt 0) := by
  induction n with
  | zero => exact Run.LeadsTo.of_imp fun _ h => h
  | succ n ih =>
    refine Run.LeadsTo.trans (Run.LeadsTo.of_event hready ?_ ?_) ih
    · intro i r h
      have hnext := @sendAt_next sizeInByte i r n h
      cases hr : i.bus.rready with
      | false =>
        rw [hr] at hnext
        exact Or.inl hnext
      | true =>
        rw [hr] at hnext
        exact Or.inr hnext
    · intro i r h hr
      have hnext := @sendAt_next sizeInByte i r n h
      rw [if_pos hr] at hnext
      exact hnext

theorem fetched_sent (hready : R.Recurs fun i => i.bus.rready = true) (len k : ℕ) :
    R.LeadsTo (FetchAt len k) (SendAt 0) := by
  -- induction on the number of words that are still to be fetched
  induction hn : len - k generalizing k with
  | zero =>
    refine Run.LeadsTo.trans (Run.LeadsTo.of_step ?_) (sent hready (len + 1))
    intro i r h
    have hnext := @fetchAt_next sizeInByte i r len k h
    have hprogress := h.progress
    rwa [if_pos (by omega)] at hnext
  | succ n ih =>
    refine Run.LeadsTo.trans (Run.LeadsTo.of_step ?_) (ih (k + 1) (by omega))
    intro i r h
    have hnext := @fetchAt_next sizeInByte i r len k h
    rwa [if_neg (by omega)] at hnext

/-- Every read accepted so far gets its beats when the master keeps taking them. -/
theorem reads_answered (hp : ∀ t, Polite (R.input t) (R.state t))
    (hready : R.Recurs fun i => i.bus.rready = true) (t : ℕ) :
    ∃ u, t ≤ u ∧ (logAt R t).reads ≤ (logAt R u).answered.length := by
  have hquiet : ∃ u, t ≤ u ∧ (logAt R u).waiting = [] := by
    have hdone : ∀ u, SendAt 0 (R.state u) → (logAt R u).waiting = [] := by
      intro u hu
      cases (readInv hp u).phase with
      | quiet waiting _ => exact waiting
      | fetching q k _ hf => exact absurd (hu.state.symm.trans hf.state) (by simp)
      | sending q _ hs =>
        have hmore := hs.more
        have hcount := hu.count.symm.trans hs.count
        omega
    cases (readInv hp t).phase with
    | quiet waiting _ => exact ⟨t, Nat.le_refl t, waiting⟩
    | fetching q k _ hf =>
      have hat : FetchAt q.ar.len.toNat k (R.state t) :=
        ⟨hf.state, hf.ar, by rw [hf.arLen], hf.count, hf.progress, hf.short⟩
      obtain ⟨u, htu, hu⟩ := fetched_sent hready _ _ t hat
      exact ⟨u, htu, hdone u hu⟩
    | sending q _ hs =>
      obtain ⟨u, htu, hu⟩ := sent hready _ t ⟨hs.state, rfl⟩
      exact ⟨u, htu, hdone u hu⟩
  obtain ⟨u, htu, hw⟩ := hquiet
  refine ⟨u, htu, ?_⟩
  calc
    (logAt R t).reads ≤ (logAt R u).reads := reads_mono htu
    _ = (logAt R u).answered.length := by simp [Log.reads, hw]

/-- A write whose address and data are there reaches the memory and its response. -/
theorem write_finishes (hready : R.Recurs fun i => i.bus.bready = true) :
    R.LeadsTo
      (fun r => (r.bState = .waitAddrOrData ∧ memWritePrepared r = true) ∨ r.bState = .waitMem ∨
        r.bState = .waitRdy)
      (fun r => r.bState = .idle) := by
  have hrdy : R.LeadsTo (fun r => r.bState = .waitRdy) (fun r => r.bState = .idle) := by
    refine Run.LeadsTo.of_event hready ?_ ?_
    · intro i r h
      cases hb : i.bus.bready with
      | false => exact Or.inl (by simp [machine, next, nextBState, h, hb])
      | true => exact Or.inr (by simp [machine, next, nextBState, h, hb])
    · intro i r h hb
      simp [machine, next, nextBState, h, hb]
  have hfin : R.LeadsTo (fun r => r.bState = .waitMem ∧ r.memWriteFinished = true)
      (fun r => r.bState = .idle) := by
    refine Run.LeadsTo.trans (Run.LeadsTo.of_step ?_) hrdy
    intro i r h
    simp [machine, next, nextBState, h.1, h.2]
  have hmem : R.LeadsTo (fun r => r.bState = .waitMem) (fun r => r.bState = .idle) := by
    refine Run.LeadsTo.trans (Run.LeadsTo.of_step ?_) (Run.LeadsTo.or hfin hrdy)
    intro i r h
    cases hf : r.memWriteFinished with
    | false => exact Or.inl (by simp [machine, next, nextBState, h, hf])
    | true => exact Or.inr (by simp [machine, next, nextBState, h, hf])
  have hprep : R.LeadsTo (fun r => r.bState = .waitAddrOrData ∧ memWritePrepared r = true)
      (fun r => r.bState = .idle) := by
    refine Run.LeadsTo.trans (Run.LeadsTo.of_step ?_) hmem
    intro i r h
    simp [machine, next, nextBState, h.1, h.2]
  exact hprep.or (hmem.or hrdy)

/-- Every write with address and data gets its response when the master keeps taking
responses. -/
theorem writes_answered (hp : ∀ t, Polite (R.input t) (R.state t))
    (hready : R.Recurs fun i => i.bus.bready = true) (t : ℕ) :
    ∃ u, t ≤ u ∧ min (logAt R t).aws (logAt R t).ws ≤ (logAt R u).bs := by
  have hidle : ∀ u, t ≤ u → (R.state u).bState = .idle → (logAt R t).aws ≤ (logAt R u).bs := by
    intro u htu hu
    have hmono := aws_mono (R := R) htu
    cases writePhase hp u with
    | idle _ _ _ aws _ => omega
    | waitAddrOrData state _ _ => simp [state] at hu
    | waitMem state _ _ _ _ => simp [state] at hu
    | waitRdy state _ _ => simp [state] at hu
  have hgo : ((R.state t).bState = .waitAddrOrData ∧ memWritePrepared (R.state t) = true) ∨
      (R.state t).bState = .waitMem ∨ (R.state t).bState = .waitRdy →
      ∃ u, t ≤ u ∧ min (logAt R t).aws (logAt R t).ws ≤ (logAt R u).bs := by
    intro h
    obtain ⟨u, htu, hu⟩ := write_finishes hready t h
    exact ⟨u, htu, (Nat.min_le_left _ _).trans (hidle u htu hu)⟩
  cases writePhase hp t with
  | idle _ _ _ aws _ => exact ⟨t, Nat.le_refl t, by omega⟩
  | waitAddrOrData state aws ws =>
    cases haw : (R.state t).awState with
    | idle => exact ⟨t, Nat.le_refl t, by simp [haw] at aws; omega⟩
    | wait =>
      cases hw : (R.state t).wState with
      | idle => exact ⟨t, Nat.le_refl t, by simp [hw] at ws; omega⟩
      | wait => exact hgo (Or.inl ⟨state, by simp [memWritePrepared, haw, hw]⟩)
  | waitMem state _ _ _ _ => exact hgo (Or.inr (Or.inl state))
  | waitRdy state _ _ => exact hgo (Or.inr (Or.inr state))

/-- Without new requests a quiet unit stays quiet, whatever it still owes. -/
theorem answered_of_quiet {n : ℕ} (hq : Quiet (R.state n))
    (hno : ∀ t, n ≤ t → (R.input t).bus.ar.valid = false) {t : ℕ} (ht : n ≤ t) :
    (logAt R t).answered = (logAt R n).answered := by
  suffices h : Quiet (R.state t) ∧ (logAt R t).answered = (logAt R n).answered from h.2
  induction t, ht using Nat.le_induction with
  | base => exact ⟨hq, rfl⟩
  | succ t hnt ih =>
    refine ⟨?_, ?_⟩
    · rw [R.step t]
      exact ih.1.stay (hno t hnt)
    · rw [log_succ, Log.watch_of_no_beat (no_beat ih.1.rvalid)]
      exact ih.2

end Run

/-! ## Runs of a scripted master -/

def powerUp : Regs where
  arState := .idle
  rdAddrBegReg := 0
  arLen := 0
  rState := .idle
  rdFIFO := Queue.empty
  mem := fun _ => 0
  awState := .idle
  wrAddr := 0
  wState := .idle
  wrData := 0
  wrMask := 0
  bState := .idle
  memWriteFinished := false

/-- A memory of 64 bytes under a master that follows a script and then does `rest`. -/
def scripted (script : List Master) (rest : Master) : Run (machine 64) :=
  (machine 64).runFrom (fun t => ⟨script.getD t rest, 0⟩) powerUp ⟨rfl, rfl, rfl, rfl, rfl, rfl⟩

end AXI4MemUnit
end Soc
end Jyd
