import Jyd.Core.CommonDef

/-!
# Ifu — instruction fetch

One fetch is outstanding at a time.  A pc accepted while the memory is busy waits
in a separate set of registers until the memory takes its request.
-/

namespace Jyd
namespace Core
namespace IFU

open Hdl

inductive State
  | idle
  | waitReq
  | waitResp
  | waitOut
  deriving DecidableEq, Repr

/-- What is remembered of an accepted pc. -/
structure Request where
  pc : Word
  pred : PredBundle
  iid : BitVec 32
  epoch : Bool
  deriving DecidableEq, Repr

structure Regs where
  state : State
  /-- `pcReg`, `predNextReg`, `reqIIDReg`, `reqEpochReg`. -/
  req : Request
  /-- `pendingPCReg`, `pendingPredReg`, `pendingIIDReg`, `pendingEpochReg`. -/
  pending : Request
  instID : BitVec 32
  instReg : Word

structure In where
  pcValid : Bool
  pc : Word
  epoch : Bool
  predNext : PredBundle
  memReqReady : Bool
  memResp : Valid Word
  outReady : Bool

variable (r : Regs) (i : In)

def isWaitingRespMeetValid : Bool := r.state == .waitResp && i.memResp.valid
def consumeResp : Bool := isWaitingRespMeetValid r i && i.outReady
def consumeWaitOut : Bool := r.state == .waitOut && i.outReady
def pcReady : Bool := r.state == .idle || consumeResp r i || consumeWaitOut r i

def pcFire : Bool := i.pcValid && pcReady r i
def inputReqFire : Bool := pcFire r i && i.memReqReady
def pendingReqValid : Bool := r.state == .waitReq
def pendingReqFire : Bool := pendingReqValid r && i.memReqReady

def memReqValid : Bool := pcFire r i || pendingReqValid r
def memReqAddr : Word := if pendingReqValid r then r.pending.pc else i.pc

def outValid : Bool := isWaitingRespMeetValid r i || r.state == .waitOut

/-- The response word passes through in its own cycle. -/
def inst : Word := if i.memResp.valid then i.memResp.bits else r.instReg

def outBits : FetchedInst where
  code := inst r i
  pc := r.req.pc
  iid := r.req.iid
  epoch := r.req.epoch
  pred := r.req.pred

/-- A pc is taken into an empty unit, or when the instruction leaves. -/
theorem pcReady_eq : pcReady r i =
    match r.state with
    | .idle => true
    | .waitReq => false
    | .waitResp => i.memResp.valid && i.outReady
    | .waitOut => i.outReady := by
  rw [pcReady, consumeResp, consumeWaitOut, isWaitingRespMeetValid]
  cases r.state <;> cases i.memResp.valid <;> cases i.outReady <;> rfl

def nxtStateWhenAcceptInput : State :=
  if i.pcValid then (if i.memReqReady then .waitResp else .waitReq) else .idle

def accepted : Request where
  pc := i.pc
  pred := i.predNext
  iid := r.instID + 1
  epoch := i.epoch

def next : Regs where
  state :=
    match r.state with
    | .idle => nxtStateWhenAcceptInput i
    | .waitReq => if pendingReqFire r i then .waitResp else .waitReq
    | .waitResp =>
      if i.memResp.valid then
        (if i.outReady then nxtStateWhenAcceptInput i else .waitOut)
      else .waitResp
    | .waitOut => if i.outReady then nxtStateWhenAcceptInput i else .waitOut
  req :=
    if inputReqFire r i then accepted r i
    else if pendingReqFire r i then r.pending
    else r.req
  pending := if pcFire r i && !inputReqFire r i then accepted r i else r.pending
  instID := if pcFire r i then r.instID + 1 else r.instID
  instReg := if i.memResp.valid then i.memResp.bits else r.instReg

end IFU
end Core
end Jyd
