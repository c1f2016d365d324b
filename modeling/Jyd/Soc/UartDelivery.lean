import Jyd.Soc.UartSubsystem

/-!
# UartDelivery — every byte goes through once

A ledger collects what the CPU pushes into the TX queue, the transactions on the bus of the
UART core, and what the controller pushes into the RX queue.  `TxPhase` accounts for each
byte of the TX queue from the latch to the delayed pop, `RxInv` for the byte that is on its
way from the core to the RX queue.
-/

namespace Jyd
namespace Soc

open Hdl

namespace JydUartSubsystem

/-- The controller is looking for a received byte. -/
def State.isRx : State → Bool
  | .rxStatusAR | .rxStatusR | .rxDataAR | .rxDataR => true
  | _ => false

/-- The controller asks whether the UART has room for a byte. -/
def State.isPolling : State → Bool
  | .txStatusAR | .txStatusR => true
  | _ => false

theorem State.isPolling_iff {st : State} :
    st.isPolling = true ↔ st = .txStatusAR ∨ st = .txStatusR := by
  cases st <;> simp [isPolling]

section Fields

variable {r : Regs} {j : In}

/-! ## What one cycle leaves alone -/

/-- Each of these registers is written in one state only. -/
theorem next_frame :
    (r.state ≠ .txWriteB → (next r j).txPop = false) ∧
      (r.state ≠ .rxDataR → (next r j).rxPush = false) ∧
      (r.state ≠ .idle →
        (next r j).txByte = r.txByte ∧ (next r j).rxPollDivider = r.rxPollDivider) := by
  cases hs : r.state <;> simp only [next, hs] <;> (repeat' split) <;> simp

theorem txPop_next (h : r.state ≠ .txWriteB) : (next r j).txPop = false := next_frame.1 h

theorem rxPush_next (h : r.state ≠ .rxDataR) : (next r j).rxPush = false := next_frame.2.1 h

theorem justPopped_next (h : r.state ≠ .txWriteB) (hj : r.justPopped = false) :
    (next r j).justPopped = false := by
  cases hs : r.state <;> simp only [next, hs] <;> (repeat' split) <;>
    first | rfl | exact hj | exact absurd hs h

/-- The search for a received byte ends in the idle state. -/
theorem state_next_rx (h : r.state.isRx = true) :
    (next r j).state = .idle ∨ (next r j).state.isRx = true := by
  cases hs : r.state <;> rw [hs] at h <;> simp only [next, hs] <;> (repeat' split) <;>
    first | exact Or.inl rfl | exact Or.inr rfl | exact absurd h (by decide)

/-- and it starts there. -/
theorem rx_of_state_next (h : (next r j).state.isRx = true) :
    r.state = .idle ∨ r.state.isRx = true := by
  cases hs : r.state <;> simp only [next, hs] at h <;> (repeat' split at h) <;>
    first | exact Or.inl rfl | exact Or.inr rfl | exact absurd h Bool.false_ne_true

theorem idle_of_rxPush_next (h : (next r j).rxPush = true) : (next r j).state = .idle := by
  have hs : r.state = .rxDataR := by
    by_contra hne
    exact Bool.false_ne_true ((rxPush_next hne).symm.trans h)
  simp only [next, hs] at h ⊢
  (repeat' split at h) <;> first | exact absurd h Bool.false_ne_true | simp_all

/-- A response is awaited since its request was taken. -/
theorem asked_of_state_next :
    ((next r j).state = .txStatusR →
      (r.state = .txStatusAR ∧ j.axi.arready = true) ∨ r.state = .txStatusR) ∧
    ((next r j).state = .rxStatusR →
      (r.state = .rxStatusAR ∧ j.axi.arready = true) ∨ r.state = .rxStatusR) ∧
    ((next r j).state = .rxDataR →
      (r.state = .rxDataAR ∧ j.axi.arready = true) ∨ r.state = .rxDataR) := by
  refine ⟨?_, ?_, ?_⟩ <;> intro h <;> cases hs : r.state <;> simp only [next, hs] at h <;>
    (repeat' split at h) <;> simp_all

end Fields

end JydUartSubsystem

namespace UartSystem

open JydUartSubsystem

/-! ## The ledger -/

structure Ledger where
  bus : AxiLite.Ledger 4
  pushed : List (BitVec 8)
  delivered : List (BitVec 8)
  deriving DecidableEq, Repr

def rxPushed (r : Regs) : List (BitVec 8) := if r.rxPush then [r.rxPushData] else []

def watch (i : In) (s : State) (l : Ledger) : Ledger where
  bus := l.bus.next (axi s.fsm) i.core.slave
  pushed := l.pushed ++ i.txPushes
  delivered := l.delivered ++ rxPushed s.fsm

/-- The write of a byte to the data register. -/
def txWrite (b : BitVec 8) : BitVec 4 × AxiLite.WData := (4, ⟨0#24 ++ b, 0b0001⟩)

/-- The byte of a read of the data register. -/
def rxByte? (r : BitVec 4 × AxiLite.RData) : Option (BitVec 8) :=
  if r.1 = 0 then some (r.2.data.extractLsb' 0 8) else none

def receivedBytes (l : AxiLite.Ledger 4) : List (BitVec 8) := l.reads.filterMap rxByte?

/-! ## Sending -/

/-- The bytes `ws` have been written, and `rest` is still to be. -/
structure Accounts (l : Ledger) (ws rest : List (BitVec 8)) : Prop where
  writes : l.bus.writes = ws.map txWrite
  pushed : l.pushed = ws ++ rest

/-- No part of a write is under way on the bus. -/
def NoWrite (l : Ledger) : Prop := l.bus.aw = none ∧ l.bus.w = none

/-- Where the byte at the head of the TX queue is. -/
inductive TxPhase (s : State) (l : Ledger) (ws : List (BitVec 8)) : Prop
  | resting (state : s.fsm.state = .idle ∨ s.fsm.state.isRx = true) (pop : s.fsm.txPop = false)
      (just : s.fsm.justPopped = false) (noWrite : NoWrite l) (acc : Accounts l ws s.txFifo)
  | polling (rest : List (BitVec 8)) (state : s.fsm.state.isPolling = true)
      (pop : s.fsm.txPop = false) (just : s.fsm.justPopped = false) (noWrite : NoWrite l)
      (head : s.txFifo = s.fsm.txByte :: rest) (acc : Accounts l ws s.txFifo)
  | writing (rest : List (BitVec 8)) (state : s.fsm.state = .txWriteAWW)
      (pop : s.fsm.txPop = false) (just : s.fsm.justPopped = false)
      (aw : l.bus.aw = if s.fsm.awSent then some 4 else none)
      (w : l.bus.w = if s.fsm.wSent then some ⟨0#24 ++ s.fsm.txByte, 0b0001⟩ else none)
      (pending : (s.fsm.awSent && s.fsm.wSent) = false)
      (head : s.txFifo = s.fsm.txByte :: rest) (acc : Accounts l ws s.txFifo)
  | written (b : BitVec 8) (rest : List (BitVec 8)) (state : s.fsm.state = .txWriteB)
      (pop : s.fsm.txPop = false) (just : s.fsm.justPopped = false) (noWrite : NoWrite l)
      (head : s.txFifo = b :: rest) (acc : Accounts l ws rest)
  | popping (b : BitVec 8) (rest : List (BitVec 8)) (state : s.fsm.state = .idle)
      (pop : s.fsm.txPop = true) (just : s.fsm.justPopped = true) (noWrite : NoWrite l)
      (head : s.txFifo = b :: rest) (acc : Accounts l ws rest)

section Sending

variable {depth : ℕ} {i : In} {s : State} {l : Ledger} {ws rest : List (BitVec 8)}

/-- Outside the write state the bus sees no part of a write. -/
theorem watch_no_write (hs : s.fsm.state ≠ .txWriteAWW) (h : NoWrite l) :
    NoWrite (watch i s l) ∧ (watch i s l).bus.writes = l.bus.writes := by
  have haw : (axi s.fsm).aw.valid = false := by simp [axi, hs]
  have hw : (axi s.fsm).w.valid = false := by simp [axi, hs]
  rcases AxiLite.Ledger.next_no_write (s := i.core.slave) haw hw h with ⟨h1, h2, h3⟩
  exact ⟨⟨h1, h2⟩, h3⟩

/-- New bytes of the CPU join the end of the queue. -/
theorem Accounts.push (h : Accounts l ws rest)
    (hw : (watch i s l).bus.writes = l.bus.writes) :
    Accounts (watch i s l) ws (rest ++ i.txPushes) := by
  refine ⟨hw.trans h.writes, ?_⟩
  show l.pushed ++ i.txPushes = _
  rw [h.pushed, List.append_assoc]

/-- Cycles that leave the head of the queue alone. -/
theorem txFifo_next_of_no_pop (depth : ℕ) (i : In) (hpop : s.fsm.txPop = false) :
    (next depth i s).txFifo = s.txFifo ++ i.txPushes := by
  simp [next, hpop]

/-- The idle state latches a byte, starts to look for one, or waits. -/
theorem next_of_idle {r : Regs} {j : JydUartSubsystem.In} (hs : r.state = .idle) :
    JydUartSubsystem.next r j =
      if !j.txEmpty && !r.justPopped then
        { r with
          txPop := false
          rxPush := false
          justPopped := false
          txByte := j.txFifoData
          state := .txStatusAR }
      else if !j.rxFull && r.rxPollDivider == 0xff#8 then
        { r with
          txPop := false
          rxPush := false
          justPopped := false
          rxPollDivider := 0
          state := .rxStatusAR }
      else
        { r with
          txPop := false
          rxPush := false
          justPopped := false
          rxPollDivider := r.rxPollDivider + 1 } := by
  simp only [JydUartSubsystem.next, hs]

theorem TxPhase.next_resting (state : s.fsm.state = .idle ∨ s.fsm.state.isRx = true)
    (pop : s.fsm.txPop = false) (just : s.fsm.justPopped = false) (noWrite : NoWrite l)
    (acc : Accounts l ws s.txFifo) : TxPhase (next depth i s) (watch i s l) ws := by
  have hstate : s.fsm.state ≠ .txWriteAWW ∧ s.fsm.state ≠ .txWriteB := by
    rcases state with hs | hs <;> constructor <;> intro h <;> rw [h] at hs <;>
      exact absurd hs (by decide)
  rcases watch_no_write (i := i) hstate.1 noWrite with ⟨hno, hwrites⟩
  have hacc := acc.push (i := i) (s := s) hwrites
  have hfifo := txFifo_next_of_no_pop depth i pop
  have hpop : (next depth i s).fsm.txPop = false := txPop_next hstate.2
  have hjust : (next depth i s).fsm.justPopped = false := justPopped_next hstate.2 just
  rw [← hfifo] at hacc
  rcases state with hs | hs
  · cases hq : s.txFifo with
    | nil =>
      have hnext : (JydUartSubsystem.next s.fsm (fsmIn depth i s)).state = .idle ∨
          (JydUartSubsystem.next s.fsm (fsmIn depth i s)).state.isRx = true := by
        rw [next_of_idle hs]
        simp only [fsmIn, hq, List.isEmpty_nil, Bool.not_true, Bool.false_and,
          Bool.false_eq_true, if_false]
        split
        · exact Or.inr rfl
        · exact Or.inl hs
      exact .resting hnext hpop hjust hno hacc
    | cons b rest =>
      -- the head of the queue is latched
      have hnext : (next depth i s).fsm.state = .txStatusAR ∧
          (next depth i s).fsm.txByte = b := by
        show (JydUartSubsystem.next s.fsm (fsmIn depth i s)).state = _ ∧
          (JydUartSubsystem.next s.fsm (fsmIn depth i s)).txByte = _
        rw [next_of_idle hs]
        simp [fsmIn, hq, just]
      refine .polling (rest ++ i.txPushes) ?_ hpop hjust hno ?_ hacc
      · rw [hnext.1]
        rfl
      · rw [hfifo, hq, hnext.2]
        rfl
  · exact .resting (state_next_rx hs) hpop hjust hno hacc

theorem TxPhase.next_polling (state : s.fsm.state.isPolling = true)
    (pop : s.fsm.txPop = false) (just : s.fsm.justPopped = false) (noWrite : NoWrite l)
    (head : s.txFifo = s.fsm.txByte :: rest) (acc : Accounts l ws s.txFifo) :
    TxPhase (next depth i s) (watch i s l) ws := by
  have hstate : s.fsm.state ≠ .txWriteAWW ∧ s.fsm.state ≠ .txWriteB ∧ s.fsm.state ≠ .idle := by
    refine ⟨?_, ?_, ?_⟩ <;> intro h <;> rw [h] at state <;> exact absurd state (by decide)
  rcases watch_no_write (i := i) hstate.1 noWrite with ⟨hno, hwrites⟩
  have hacc := acc.push (i := i) (s := s) hwrites
  have hfifo := txFifo_next_of_no_pop depth i pop
  have hpop : (next depth i s).fsm.txPop = false := txPop_next hstate.2.1
  have hjust : (next depth i s).fsm.justPopped = false := justPopped_next hstate.2.1 just
  have hbyte : (next depth i s).fsm.txByte = s.fsm.txByte := (next_frame.2.2 hstate.2.2).1
  have hhead : (next depth i s).txFifo = (next depth i s).fsm.txByte :: (rest ++ i.txPushes) := by
    rw [hfifo, head, hbyte]
    rfl
  rw [← hfifo] at hacc
  -- either the UART is still full, or the write starts with nothing sent
  have hnext : (next depth i s).fsm.state.isPolling = true ∨
      ((next depth i s).fsm.state = .txWriteAWW ∧ (next depth i s).fsm.awSent = false ∧
        (next depth i s).fsm.wSent = false) := by
    show (JydUartSubsystem.next s.fsm (fsmIn depth i s)).state.isPolling = true ∨
      ((JydUartSubsystem.next s.fsm (fsmIn depth i s)).state = .txWriteAWW ∧
        (JydUartSubsystem.next s.fsm (fsmIn depth i s)).awSent = false ∧
        (JydUartSubsystem.next s.fsm (fsmIn depth i s)).wSent = false)
    cases hs : s.fsm.state <;> rw [hs] at state <;> first
      | exact absurd state (by decide)
      | (simp only [JydUartSubsystem.next, hs]
         repeat' split
         all_goals first | exact Or.inl rfl | exact Or.inr ⟨rfl, rfl, rfl⟩)
  rcases hnext with hpoll | ⟨hs, haw, hw⟩
  · exact .polling _ hpoll hpop hjust hno hhead hacc
  · refine .writing _ hs hpop hjust ?_ ?_ ?_ hhead hacc
    · rw [haw]
      exact hno.1
    · rw [hw]
      exact hno.2
    · rw [haw]
      rfl

/-- The parts of a write that the bus has taken after a cycle of the write state. -/
theorem taken_of_writing
    (aw : l.bus.aw = if s.fsm.awSent then some 4 else none)
    (w : l.bus.w = if s.fsm.wSent then some ⟨0#24 ++ s.fsm.txByte, 0b0001⟩ else none) :
    l.bus.takenAw (axi s.fsm) i.core.slave =
        (if s.fsm.awSent || AxiLite.awFire (axi s.fsm) i.core.slave then some 4 else none) ∧
      l.bus.takenW (axi s.fsm) i.core.slave =
        (if s.fsm.wSent || AxiLite.wFire (axi s.fsm) i.core.slave then
          some ⟨0#24 ++ s.fsm.txByte, 0b0001⟩ else none) := by
  rw [AxiLite.Ledger.takenAw, AxiLite.Ledger.takenW, aw, w]
  refine ⟨?_, ?_⟩
  · cases s.fsm.awSent <;> cases AxiLite.awFire (axi s.fsm) i.core.slave <;> rfl
  · cases s.fsm.wSent <;> cases AxiLite.wFire (axi s.fsm) i.core.slave <;> rfl

theorem next_of_writing {r : Regs} {j : JydUartSubsystem.In} (hs : r.state = .txWriteAWW) :
    JydUartSubsystem.next r j =
      { r with
        txPop := false
        rxPush := false
        awSent := r.awSent || AxiLite.awFire (axi r) j.axi
        wSent := r.wSent || AxiLite.wFire (axi r) j.axi
        state :=
          if (r.awSent || AxiLite.awFire (axi r) j.axi) &&
              (r.wSent || AxiLite.wFire (axi r) j.axi) then .txWriteB
          else .txWriteAWW } := by
  simp only [JydUartSubsystem.next, hs]

/-- Both parts have been taken: the byte is written. -/
def WriteTaken (i : In) (s : State) : Bool :=
  (s.fsm.awSent || AxiLite.awFire (axi s.fsm) i.core.slave) &&
    (s.fsm.wSent || AxiLite.wFire (axi s.fsm) i.core.slave)

theorem TxPhase.next_writing (state : s.fsm.state = .txWriteAWW)
    (pop : s.fsm.txPop = false) (just : s.fsm.justPopped = false)
    (aw : l.bus.aw = if s.fsm.awSent then some 4 else none)
    (w : l.bus.w = if s.fsm.wSent then some ⟨0#24 ++ s.fsm.txByte, 0b0001⟩ else none)
    (head : s.txFifo = s.fsm.txByte :: rest) (acc : Accounts l ws s.txFifo) :
    TxPhase (next depth i s) (watch i s l)
      (if WriteTaken i s then ws ++ [s.fsm.txByte] else ws) := by
  have hstate : s.fsm.state ≠ .txWriteB ∧ s.fsm.state ≠ .idle := by
    constructor <;> intro h <;> exact absurd (state.symm.trans h) (by decide)
  rcases taken_of_writing (i := i) aw w with ⟨htaw, htw⟩
  have hfifo := txFifo_next_of_no_pop depth i pop
  have hpop : (next depth i s).fsm.txPop = false := txPop_next hstate.1
  have hjust : (next depth i s).fsm.justPopped = false := justPopped_next hstate.1 just
  have hbyte : (next depth i s).fsm.txByte = s.fsm.txByte := (next_frame.2.2 hstate.2).1
  have hfsm : (next depth i s).fsm =
      JydUartSubsystem.next s.fsm (fsmIn depth i s) := rfl
  rw [next_of_writing state] at hfsm
  have hhead : (next depth i s).txFifo = s.fsm.txByte :: (rest ++ i.txPushes) := by
    rw [hfifo, head]
    rfl
  cases hdone : WriteTaken i s with
  | true =>
    -- the ledger enters the write, and the byte still waits at the head to be popped
    have hboth := hdone
    rw [WriteTaken, Bool.and_eq_true] at hboth
    rw [hboth.1, if_pos rfl] at htaw
    rw [hboth.2, if_pos rfl] at htw
    have hno : NoWrite (watch i s l) := by
      constructor
      · simp only [watch, AxiLite.Ledger.next, htw, Option.isSome_some, if_true]
      · simp only [watch, AxiLite.Ledger.next, htaw, Option.isSome_some, if_true]
    have hwrites : (watch i s l).bus.writes = l.bus.writes ++ [txWrite s.fsm.txByte] := by
      simp only [watch, AxiLite.Ledger.next, htaw, htw]
      rfl
    have hs : (next depth i s).fsm.state = .txWriteB := by
      rw [hfsm]
      show (if WriteTaken i s = true then _ else _) = _
      rw [hdone, if_pos rfl]
    refine .written _ _ hs hpop hjust hno hhead ⟨?_, ?_⟩
    · rw [hwrites, acc.writes, if_pos rfl, List.map_append]
      rfl
    · show l.pushed ++ i.txPushes = _
      rw [acc.pushed, head, if_pos rfl]
      simp
  | false =>
    have hs : (next depth i s).fsm.state = .txWriteAWW := by
      rw [hfsm]
      show (if WriteTaken i s = true then _ else _) = _
      rw [hdone, if_neg (by decide)]
    have hsent : (next depth i s).fsm.awSent =
          (s.fsm.awSent || AxiLite.awFire (axi s.fsm) i.core.slave) ∧
        (next depth i s).fsm.wSent =
          (s.fsm.wSent || AxiLite.wFire (axi s.fsm) i.core.slave) := by
      rw [hfsm]
      exact ⟨rfl, rfl⟩
    have hopen := hdone
    rw [WriteTaken, ← hsent.1, ← hsent.2] at hopen
    rw [← hsent.1] at htaw
    rw [← hsent.2, ← hbyte] at htw
    have hledger : (watch i s l).bus.aw =
          (if (next depth i s).fsm.awSent then some 4 else none) ∧
        (watch i s l).bus.w =
          (if (next depth i s).fsm.wSent then
            some ⟨0#24 ++ (next depth i s).fsm.txByte, 0b0001⟩ else none) ∧
        (watch i s l).bus.writes = l.bus.writes := by
      simp only [watch, AxiLite.Ledger.next, htaw, htw]
      cases haw : (next depth i s).fsm.awSent <;> cases hw : (next depth i s).fsm.wSent <;>
        simp_all
    have hacc := acc.push (i := i) (s := s) hledger.2.2
    rw [← hfifo] at hacc
    exact .writing _ hs hpop hjust hledger.1 hledger.2.1 hopen (hbyte ▸ hhead) hacc

theorem TxPhase.next_written {b : BitVec 8} (state : s.fsm.state = .txWriteB)
    (pop : s.fsm.txPop = false) (just : s.fsm.justPopped = false) (noWrite : NoWrite l)
    (head : s.txFifo = b :: rest) (acc : Accounts l ws rest) :
    TxPhase (next depth i s) (watch i s l) ws := by
  have hstate : s.fsm.state ≠ .txWriteAWW := fun h => absurd (state.symm.trans h) (by decide)
  rcases watch_no_write (i := i) hstate noWrite with ⟨hno, hwrites⟩
  have hacc := acc.push (i := i) (s := s) hwrites
  have hhead : (next depth i s).txFifo = b :: (rest ++ i.txPushes) := by
    rw [txFifo_next_of_no_pop depth i pop, head]
    rfl
  have hfsm : (next depth i s).fsm =
      if i.core.bvalid then
        { s.fsm with txPop := true, rxPush := false, justPopped := true, state := .idle }
      else { s.fsm with txPop := false, rxPush := false } := by
    show JydUartSubsystem.next s.fsm (fsmIn depth i s) = _
    simp only [JydUartSubsystem.next, state]
    rfl
  -- the response pops the byte, which stays at the head for one more cycle
  cases hb : i.core.bvalid with
  | true =>
    rw [hb, if_pos rfl] at hfsm
    refine .popping b _ ?_ ?_ ?_ hno hhead hacc <;> rw [hfsm]
  | false =>
    rw [hb, if_neg (by decide)] at hfsm
    refine .written b _ ?_ ?_ ?_ hno hhead hacc <;> rw [hfsm]
    · exact state
    · exact just

/-- In the cycle of the pop the queue still shows the old byte, and the controller does not
look at it. -/
theorem TxPhase.next_popping {b : BitVec 8} (state : s.fsm.state = .idle)
    (pop : s.fsm.txPop = true) (just : s.fsm.justPopped = true) (noWrite : NoWrite l)
    (head : s.txFifo = b :: rest) (acc : Accounts l ws rest) :
    TxPhase (next depth i s) (watch i s l) ws := by
  have hstate : s.fsm.state ≠ .txWriteAWW ∧ s.fsm.state ≠ .txWriteB := by
    constructor <;> intro h <;> exact absurd (state.symm.trans h) (by decide)
  rcases watch_no_write (i := i) hstate.1 noWrite with ⟨hno, hwrites⟩
  have hacc := acc.push (i := i) (s := s) hwrites
  have hfifo : (next depth i s).txFifo = rest ++ i.txPushes := by simp [next, pop, head]
  -- the flag keeps the controller from latching the byte again
  have hnext : ((JydUartSubsystem.next s.fsm (fsmIn depth i s)).state = .idle ∨
      (JydUartSubsystem.next s.fsm (fsmIn depth i s)).state.isRx = true) ∧
      (JydUartSubsystem.next s.fsm (fsmIn depth i s)).justPopped = false := by
    rw [next_of_idle state]
    simp only [just, Bool.not_true, Bool.and_false, Bool.false_eq_true, if_false]
    split
    · exact ⟨Or.inr rfl, rfl⟩
    · exact ⟨Or.inl state, rfl⟩
  rw [← hfifo] at hacc
  exact .resting hnext.1 (txPop_next hstate.2) hnext.2 hno hacc

/-- One cycle: the written bytes grow by the byte whose write has been taken. -/
theorem TxPhase.next (h : TxPhase s l ws) :
    ∃ ws', TxPhase (next depth i s) (watch i s l) ws' := by
  cases h with
  | resting state pop just noWrite acc => exact ⟨_, next_resting state pop just noWrite acc⟩
  | polling rest state pop just noWrite head acc =>
    exact ⟨_, next_polling state pop just noWrite head acc⟩
  | writing rest state pop just aw w _ head acc =>
    exact ⟨_, next_writing state pop just aw w head acc⟩
  | written b rest state pop just noWrite head acc =>
    exact ⟨_, next_written state pop just noWrite head acc⟩
  | popping b rest state pop just noWrite head acc =>
    exact ⟨_, next_popping state pop just noWrite head acc⟩

theorem TxPhase.accounts (h : TxPhase s l ws) : ∃ rest, Accounts l ws rest := by
  cases h with
  | resting _ _ _ _ acc => exact ⟨_, acc⟩
  | polling _ _ _ _ _ _ acc => exact ⟨_, acc⟩
  | writing _ _ _ _ _ _ _ _ acc => exact ⟨_, acc⟩
  | written _ _ _ _ _ _ _ acc => exact ⟨_, acc⟩
  | popping _ _ _ _ _ _ _ acc => exact ⟨_, acc⟩

end Sending

/-! ## Receiving -/

/-- A byte on its way from the core to the RX queue has room there, and the poll divider
keeps the controller from asking for another one too early. -/
structure RxInv (depth : ℕ) (s : State) (l : Ledger) : Prop where
  room : s.fsm.state.isRx = true ∨ s.fsm.rxPush = true →
    s.fsm.rxPollDivider = 0 ∧ s.rxFifo.length < depth
  push : s.fsm.rxPush = true → s.fsm.state = .idle
  status : s.fsm.state = .txStatusR ∨ s.fsm.state = .rxStatusR → l.bus.ar = some 8
  data : s.fsm.state = .rxDataR → l.bus.ar = some 0
  bytes : receivedBytes l.bus = l.delivered ++ rxPushed s.fsm

section Receiving

variable {depth : ℕ} {i : In} {s : State} {l : Ledger}

/-- The byte that a cycle brings from the core. -/
def rxByteNow (i : In) (s : State) : List (BitVec 8) :=
  if s.fsm.state = .rxDataR ∧ i.core.r.valid = true then [i.core.r.bits.extractLsb' 0 8] else []

theorem rxPushed_next :
    rxPushed (next depth i s).fsm = rxByteNow i s := by
  by_cases hs : s.fsm.state = .rxDataR
  · have hfsm : (next depth i s).fsm =
        if i.core.r.valid then
          { s.fsm with
            txPop := false
            rxPush := true
            rxPushData := i.core.r.bits.extractLsb' 0 8
            state := .idle }
        else { s.fsm with txPop := false, rxPush := false } := by
      show JydUartSubsystem.next s.fsm (fsmIn depth i s) = _
      simp only [JydUartSubsystem.next, hs]
      rfl
    rw [hfsm, rxByteNow]
    cases i.core.r.valid <;> simp [rxPushed, hs]
  · have hno : (next depth i s).fsm.rxPush = false := rxPush_next hs
    have hbyte : rxByteNow i s = [] := if_neg fun h => hs h.1
    rw [rxPushed, hno, hbyte]
    rfl

theorem receivedBytes_next (h : RxInv depth s l) :
    receivedBytes (watch i s l).bus = receivedBytes l.bus ++ rxByteNow i s := by
  have hsplit : receivedBytes (watch i s l).bus = receivedBytes l.bus ++
      (l.bus.completedRead (axi s.fsm) i.core.slave).toList.filterMap rxByte? := by
    simp only [receivedBytes, watch, AxiLite.Ledger.next, List.filterMap_append]
  rw [hsplit]
  congr 1
  by_cases hr : AxiLite.rFire (axi s.fsm) i.core.slave = true
  · -- a response is taken in three states only, and only one of them reads the data register
    have hparts : i.core.r.valid = true ∧ (s.fsm.state = .txStatusR ∨
        s.fsm.state = .rxStatusR ∨ s.fsm.state = .rxDataR) := by
      simpa [AxiLite.rFire, axi, OkayCore.slave, or_assoc] using hr
    rw [AxiLite.Ledger.completedRead, hr, if_pos rfl]
    rcases hparts with ⟨hv, hs | hs | hs⟩
    · rw [h.status (Or.inl hs), rxByteNow, if_neg (by simp [hs])]
      rfl
    · rw [h.status (Or.inr hs), rxByteNow, if_neg (by simp [hs])]
      rfl
    · rw [h.data hs, rxByteNow, if_pos ⟨hs, hv⟩]
      rfl
  · have hno : ¬ (s.fsm.state = .rxDataR ∧ i.core.r.valid = true) := by
      rintro ⟨hs, hv⟩
      exact hr (by simp [AxiLite.rFire, axi, OkayCore.slave, hs, hv])
    rw [AxiLite.Ledger.completedRead, if_neg hr, rxByteNow, if_neg hno]
    rfl

/-- The queue only grows by a push. -/
theorem rxFifo_next_length (h : s.fsm.rxPush = false) :
    (next depth i s).rxFifo.length ≤ s.rxFifo.length := by
  simp [next, h]

theorem room_next (h : RxInv depth s l) :
    (next depth i s).fsm.state.isRx = true ∨ (next depth i s).fsm.rxPush = true →
      (next depth i s).fsm.rxPollDivider = 0 ∧ (next depth i s).rxFifo.length < depth := by
  intro hafter
  by_cases hrx : s.fsm.state.isRx = true
  · -- the search goes on, or ends with a byte
    rcases h.room (Or.inl hrx) with ⟨hdiv, hroom⟩
    have hidle : s.fsm.state ≠ .idle := fun hs => by rw [hs] at hrx; exact absurd hrx (by decide)
    have hquiet : s.fsm.rxPush = false := Bool.eq_false_iff.mpr fun hp => hidle (h.push hp)
    refine ⟨(next_frame.2.2 hidle).2.trans hdiv, ?_⟩
    exact Nat.lt_of_le_of_lt (rxFifo_next_length hquiet) hroom
  · have hnodata : s.fsm.state ≠ .rxDataR := fun hs => by rw [hs] at hrx; exact hrx rfl
    have hnopush : (next depth i s).fsm.rxPush = false := rxPush_next hnodata
    have hstarts : (next depth i s).fsm.state.isRx = true := by
      rcases hafter with hs | hp
      · exact hs
      · exact absurd (hnopush.symm.trans hp) (by decide)
    -- the search starts in the idle state, with a full divider and with room in the queue
    have hidle : s.fsm.state = .idle := (rx_of_state_next hstarts).resolve_right hrx
    have hfsm : (next depth i s).fsm = JydUartSubsystem.next s.fsm (fsmIn depth i s) := rfl
    rw [next_of_idle hidle] at hfsm
    split at hfsm
    · rw [hfsm] at hstarts
      exact absurd hstarts Bool.false_ne_true
    · split at hfsm
      · rename_i hguard
        simp only [fsmIn, rxFull, Bool.and_eq_true, Bool.not_eq_true', decide_eq_false_iff_not,
          beq_iff_eq, Nat.not_le] at hguard
        have hquiet : s.fsm.rxPush = false := by
          refine Bool.eq_false_iff.mpr fun hp => ?_
          have hzero := (h.room (Or.inr hp)).1
          rw [hguard.2] at hzero
          exact absurd hzero (by decide)
        refine ⟨by rw [hfsm], ?_⟩
        exact Nat.lt_of_le_of_lt (rxFifo_next_length hquiet) hguard.1
      · have hstays : (next depth i s).fsm.state = .idle := by
          rw [hfsm]
          exact hidle
        rw [hstays] at hstarts
        exact absurd hstarts (by decide)

/-- The address of the read that is awaited. -/
theorem ar_next :
    (watch i s l).bus.ar =
      if AxiLite.arFire (axi s.fsm) i.core.slave then some (araddr s.fsm) else l.bus.ar := rfl

theorem RxInv.next (h : RxInv depth s l) : RxInv depth (next depth i s) (watch i s l) where
  room := room_next h
  push := idle_of_rxPush_next
  status := by
    intro hafter
    have hcases : ((s.fsm.state = .txStatusAR ∨ s.fsm.state = .rxStatusAR) ∧
        i.core.arready = true) ∨ (s.fsm.state = .txStatusR ∨ s.fsm.state = .rxStatusR) := by
      rcases hafter with hs | hs
      · rcases asked_of_state_next.1 hs with ⟨hask, hready⟩ | hwait
        · exact Or.inl ⟨Or.inl hask, hready⟩
        · exact Or.inr (Or.inl hwait)
      · rcases asked_of_state_next.2.1 hs with ⟨hask, hready⟩ | hwait
        · exact Or.inl ⟨Or.inr hask, hready⟩
        · exact Or.inr (Or.inr hwait)
    rw [ar_next]
    rcases hcases with ⟨hask | hask, hready⟩ | hwait
    · simp [AxiLite.arFire, axi, araddr, OkayCore.slave, hask, hready]
    · simp [AxiLite.arFire, axi, araddr, OkayCore.slave, hask, hready]
    · have hno : AxiLite.arFire (axi s.fsm) i.core.slave = false := by
        rcases hwait with hw | hw <;> simp [AxiLite.arFire, axi, hw]
      rw [hno]
      exact h.status hwait
  data := by
    intro hafter
    rw [ar_next]
    rcases asked_of_state_next.2.2 hafter with ⟨hask, hready⟩ | hwait
    · have hready' : i.core.arready = true := hready
      simp [AxiLite.arFire, axi, araddr, OkayCore.slave, hask, hready']
    · have hno : AxiLite.arFire (axi s.fsm) i.core.slave = false := by
        simp [AxiLite.arFire, axi, hwait]
      rw [hno]
      exact h.data hwait
  bytes := by
    rw [receivedBytes_next h, h.bytes, rxPushed_next]
    rfl

end Receiving

/-! ## Along a run -/

section Run

variable {depth : ℕ} (R : Run (machine depth))

def ledger : ℕ → Ledger := R.observe ⟨.empty, [], []⟩ watch

theorem txPhase (t : ℕ) : ∃ ws, TxPhase (R.state t) (ledger R t) ws := by
  refine R.observe_invariant _ watch (fun s l => ∃ ws, TxPhase s l ws) ?_ ?_ t
  · rintro s rfl
    exact ⟨[], .resting (Or.inl rfl) rfl rfl ⟨rfl, rfl⟩ ⟨rfl, rfl⟩⟩
  · rintro i s l ⟨ws, h⟩
    exact h.next

theorem rxInv (t : ℕ) : RxInv depth (R.state t) (ledger R t) := by
  refine R.observe_invariant _ watch (RxInv depth) ?_ (fun i s l h => h.next) t
  rintro s rfl
  refine ⟨?_, ?_, ?_, ?_, rfl⟩
  · rintro (h | h) <;> exact absurd h Bool.false_ne_true
  · exact fun h => absurd h Bool.false_ne_true
  · rintro (h | h) <;> cases h
  · exact fun h => nomatch h

/-- The bytes written so far are the first ones pushed. -/
theorem writes_eq_take (t : ℕ) :
    (ledger R t).bus.writes =
      ((ledger R t).pushed.take (ledger R t).bus.writes.length).map txWrite := by
  rcases txPhase R t with ⟨ws, h⟩
  rcases h.accounts with ⟨rest, hwrites, hpushed⟩
  rw [hwrites, List.length_map, hpushed, List.take_left]

/-- A byte read from the core is in the RX queue's input one cycle later. -/
theorem delivered_succ (t : ℕ) : (ledger R (t + 1)).delivered = receivedBytes (ledger R t).bus :=
  (rxInv R t).bytes.symm

theorem not_full_of_push {t : ℕ} (h : (R.state t).fsm.rxPush = true) :
    rxFull depth (R.state t) = false := by
  have hroom := ((rxInv R t).room (Or.inr h)).2
  exact decide_eq_false (Nat.not_le.mpr hroom)

/-- The RX queue holds the end of what was delivered: the CPU has taken the rest. -/
theorem rxFifo_suffix (t : ℕ) : (R.state t).rxFifo <:+ (ledger R t).delivered := by
  induction t with
  | zero =>
    rw [R.init]
    exact List.suffix_rfl
  | succ t ih =>
    -- a push that met a full queue would be lost
    have hpushed : (if (R.state t).fsm.rxPush && !rxFull depth (R.state t) then
        [(R.state t).fsm.rxPushData] else []) = rxPushed (R.state t).fsm := by
      cases hp : (R.state t).fsm.rxPush with
      | false => simp [rxPushed, hp]
      | true => simp [rxPushed, hp, not_full_of_push R hp]
    rw [R.step t]
    show (R.state t).rxFifo.drop (R.input t).rxPops ++ _ <:+
      (ledger R t).delivered ++ rxPushed (R.state t).fsm
    rw [hpushed, List.suffix_append_inj_of_length_eq rfl]
    exact ⟨(List.drop_suffix _ _).trans ih, rfl⟩

theorem pushed_mono {t u : ℕ} (h : t ≤ u) : (ledger R t).pushed <+: (ledger R u).pushed := by
  induction u, h using Nat.le_induction with
  | base => exact List.prefix_rfl
  | succ u _ ih => exact ih.trans (List.prefix_append _ _)

end Run

end UartSystem
end Soc
end Jyd
