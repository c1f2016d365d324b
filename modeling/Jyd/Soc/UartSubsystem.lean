import Jyd.Hdl.AxiLite
import Jyd.Hdl.Machine

/-!
# UartSubsystem — one bus master between two byte queues and a UART core

The controller of `jyd_uart_subsystem`.  It latches the byte at the head of the TX queue,
polls the status register until the UART has room, writes the byte and only then pops the
queue; when there is nothing to send it polls now and then for a received byte.  Pop and
push are registered, so they reach the queues one cycle after the controller has returned
to its idle state.
-/

namespace Jyd
namespace Soc
namespace JydUartSubsystem

open Hdl

/-! ## The controller -/

inductive State
  | idle
  | txStatusAR
  | txStatusR
  | txWriteAWW
  | txWriteB
  | rxStatusAR
  | rxStatusR
  | rxDataAR
  | rxDataR
  deriving DecidableEq, Repr

structure Regs where
  state : State
  awSent : Bool
  wSent : Bool
  rxPollDivider : BitVec 8
  justPopped : Bool
  txByte : BitVec 8
  txPop : Bool
  rxPush : Bool
  rxPushData : BitVec 8
  deriving DecidableEq, Repr

structure In where
  txEmpty : Bool
  txFifoData : BitVec 8
  rxFull : Bool
  axi : AxiLite.Slave
  deriving DecidableEq, Repr

variable (r : Regs) (i : In)

def araddr : BitVec 4 :=
  if r.state == .txStatusAR || r.state == .txStatusR || r.state == .rxStatusAR ||
      r.state == .rxStatusR then 8
  else 0

def axi : AxiLite.Master 4 where
  aw := ⟨r.state == .txWriteAWW && !r.awSent, 4⟩
  w := ⟨r.state == .txWriteAWW && !r.wSent, ⟨0#24 ++ r.txByte, 0b0001⟩⟩
  bready := r.state == .txWriteB
  ar := ⟨r.state == .txStatusAR || r.state == .rxStatusAR || r.state == .rxDataAR, araddr r⟩
  rready := r.state == .txStatusR || r.state == .rxStatusR || r.state == .rxDataR

def next : Regs :=
  let r' := { r with txPop := false, rxPush := false }
  match r.state with
  | .idle =>
    if !i.txEmpty && !r.justPopped then
      { r' with justPopped := false, txByte := i.txFifoData, state := .txStatusAR }
    else if !i.rxFull && r.rxPollDivider == 0xff#8 then
      { r' with justPopped := false, rxPollDivider := 0, state := .rxStatusAR }
    else { r' with justPopped := false, rxPollDivider := r.rxPollDivider + 1 }
  | .txStatusAR => if i.axi.arready then { r' with state := .txStatusR } else r'
  | .txStatusR =>
    if i.axi.r.valid then
      -- an error response is only reported; the controller keeps waiting
      if i.axi.r.bits.resp != AxiLite.OKAY then r'
      else if i.axi.r.bits.data.getLsbD 3 then { r' with state := .txStatusAR }
      else { r' with awSent := false, wSent := false, state := .txWriteAWW }
    else r'
  | .txWriteAWW =>
    let awDone := r.awSent || AxiLite.awFire (axi r) i.axi
    let wDone := r.wSent || AxiLite.wFire (axi r) i.axi
    { r' with
      awSent := awDone
      wSent := wDone
      state := if awDone && wDone then .txWriteB else .txWriteAWW }
  | .txWriteB =>
    if i.axi.b.valid then { r' with txPop := true, justPopped := true, state := .idle } else r'
  | .rxStatusAR => if i.axi.arready then { r' with state := .rxStatusR } else r'
  | .rxStatusR =>
    if i.axi.r.valid then
      if i.axi.r.bits.resp != AxiLite.OKAY then r'
      else if i.axi.r.bits.data.getLsbD 0 then { r' with state := .rxDataAR }
      else { r' with state := .idle }
    else r'
  | .rxDataAR => if i.axi.arready then { r' with state := .rxDataR } else r'
  | .rxDataR =>
    if i.axi.r.valid then
      if i.axi.r.bits.resp != AxiLite.OKAY then { r' with state := .idle }
      else
        { r' with
          rxPush := true
          rxPushData := i.axi.r.bits.data.extractLsb' 0 8
          state := .idle }
    else r'

def Reset : Regs := ⟨.idle, false, false, 0, false, 0, false, false, 0⟩

end JydUartSubsystem

/-! ## With its queues -/

namespace UartSystem

open Hdl JydUartSubsystem

/-- A UART core that answers every request with OKAY, at times of its own. -/
structure OkayCore where
  awready : Bool
  wready : Bool
  bvalid : Bool
  arready : Bool
  r : Valid Word
  deriving DecidableEq, Repr

def OkayCore.slave (c : OkayCore) : AxiLite.Slave where
  awready := c.awready
  wready := c.wready
  b := ⟨c.bvalid, AxiLite.OKAY⟩
  arready := c.arready
  r := ⟨c.r.valid, ⟨c.r.bits, AxiLite.OKAY⟩⟩

/-- The controller and the two first-word-fall-through queues. -/
structure State where
  fsm : JydUartSubsystem.Regs
  txFifo : List (BitVec 8)
  rxFifo : List (BitVec 8)
  deriving DecidableEq, Repr

/-- One cycle of the UART clock: the core, and what the CPU side of the queues does before
the next edge.  The output of an empty queue is arbitrary. -/
structure In where
  core : OkayCore
  txPushes : List (BitVec 8)
  rxPops : ℕ
  txStale : BitVec 8
  deriving DecidableEq, Repr

variable (depth : ℕ) (i : In) (s : State)

def rxFull : Bool := decide (depth ≤ s.rxFifo.length)

def fsmIn : JydUartSubsystem.In where
  txEmpty := s.txFifo.isEmpty
  txFifoData := s.txFifo.headD i.txStale
  rxFull := rxFull depth s
  axi := i.core.slave

def next : State where
  fsm := JydUartSubsystem.next s.fsm (fsmIn depth i s)
  txFifo := (if s.fsm.txPop then s.txFifo.tail else s.txFifo) ++ i.txPushes
  rxFifo :=
    s.rxFifo.drop i.rxPops ++
      (if s.fsm.rxPush && !rxFull depth s then [s.fsm.rxPushData] else [])

def machine : Machine In State where
  init := fun s => s = ⟨JydUartSubsystem.Reset, [], []⟩
  next := next depth

end UartSystem

end Soc
end Jyd
