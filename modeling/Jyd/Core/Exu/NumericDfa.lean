import Jyd.Core.NumericTokenDfa

/-!
# NumericDfa — the word-fed numeric automaton inside EXU

The controller fetches the aligned word that holds the next symbols, runs the
two-byte stage twice, and for the histogram form commits the collected mask to
the transition counters when the token ends.
-/

namespace Jyd
namespace Core
namespace NumericDfa

open Hdl NumericTokenDfa

inductive State
  | idle
  | request
  | response
  | processLow
  | processHigh
  | commit
  | done
  deriving DecidableEq, Repr

structure Regs where
  xdfaCounters : Fin 8 → BitVec 12
  xdfaFinalCounters : Fin 8 → BitVec 16
  xdfaPendingMask : BitVec 8
  xdfaWordState : State
  xdfaWordStartState : BitVec 3
  xdfaWordAddress : Word
  xdfaWordStepResult : Word
  xdfaWordResponseData : Word
  xdfaWordAvailable : BitVec 3
  xdfaWordIntermediate : BitVec 16
  xdfaCommitMask : BitVec 8
  xdfaCommitFinalState : BitVec 3

/-- What the controller sees of its instruction and of the two handshakes. -/
structure In where
  valid : Bool
  isNumericDfa : Bool
  func3t : BitVec 3
  func7t : BitVec 7
  reg_v1 : Word
  reg_v2 : Word
  memReqFire : Bool
  memResp : Valid Word
  outReady : Bool
  outFire : Bool

variable (r : Regs) (i : In)

def isNumericDfaStep : Bool := i.isNumericDfa && i.func3t == 5#3
def isNumericDfaHistogramStep : Bool := isNumericDfaStep i && i.func7t == 1#7

/-- The first stage, over the low half of the response word. -/
def xdfaWordLow : Lane :=
  twoByteStep r.xdfaWordAvailable (r.xdfaWordResponseData.extractLsb' 0 16)
    { state := r.xdfaWordStartState, mask := 0, consumed := 0, active := true, stopped := false }

/-- The second stage, over the high half, from the registered first result. -/
def xdfaWordHigh : Lane :=
  twoByteStep
    (if 2 < r.xdfaWordAvailable.toNat then r.xdfaWordAvailable - 2 else 0)
    (r.xdfaWordResponseData.extractLsb' 16 16) (Lane.unpack r.xdfaWordIntermediate)

def stepResult (l : Lane) : Word :=
  0#17 ++ l.mask ++ BitVec.ofBool l.stopped ++ l.consumed ++ l.state

def stateIndex (s : BitVec 3) : Fin 8 := ⟨s.toNat, s.isLt⟩

def xdfaCounterRead : Word :=
  let sel := stateIndex (i.reg_v1.extractLsb' 0 3)
  if i.func7t == 1#7 then (r.xdfaFinalCounters sel).setWidth 32
  else (r.xdfaCounters sel).setWidth 32

def xdfaWordResult : Word :=
  if i.func3t == 2#3 then xdfaCounterRead r i
  else if isNumericDfaStep i then r.xdfaWordStepResult
  else 0

/-- The controller. -/
def control : Regs :=
  if r.xdfaWordState == .idle && i.valid && isNumericDfaStep i then
    { r with
      xdfaWordStartState := i.reg_v1.extractLsb' 0 3
      xdfaWordAddress := i.reg_v2
      xdfaWordState := .request }
  else if r.xdfaWordState == .request && i.memReqFire then
    { r with xdfaWordState := .response }
  else if r.xdfaWordState == .response && i.memResp.valid then
    { r with
      xdfaWordResponseData :=
        i.memResp.bits >>> (8 * (r.xdfaWordAddress.extractLsb' 0 2).toNat)
      xdfaWordAvailable := 4#3 - (r.xdfaWordAddress.extractLsb' 0 2).setWidth 3
      xdfaWordState := .processLow }
  else if r.xdfaWordState == .processLow then
    { r with
      xdfaWordIntermediate := (xdfaWordLow r).pack
      xdfaWordState := .processHigh }
  else if r.xdfaWordState == .processHigh then
    let high := xdfaWordHigh r
    let combinedMask := r.xdfaPendingMask ||| high.mask
    let n := { r with xdfaWordStepResult := stepResult high }
    if isNumericDfaHistogramStep i then
      if high.stopped then
        { n with
          xdfaCommitMask := combinedMask
          xdfaCommitFinalState := high.state
          xdfaPendingMask := 0
          xdfaWordState := .commit }
      else
        { n with
          xdfaPendingMask := combinedMask
          xdfaWordState := .done }
    else { n with xdfaWordState := .done }
  else if r.xdfaWordState == .commit then
    { r with
      xdfaCounters := fun s =>
        if r.xdfaCommitMask.getLsbD s then r.xdfaCounters s + 1 else r.xdfaCounters s
      xdfaFinalCounters := fun s =>
        if r.xdfaCommitFinalState.toNat = s then r.xdfaFinalCounters s + 1
        else r.xdfaFinalCounters s
      xdfaWordState := .done }
  else if r.xdfaWordState == .done && i.outFire then
    { r with xdfaWordState := .idle }
  else r

def numericDfaLocalFire : Bool :=
  i.valid && i.outReady && i.isNumericDfa && !isNumericDfaStep i

/-- The single-cycle operations override the controller's counter updates. -/
def next : Regs :=
  let c := control r i
  if numericDfaLocalFire i && i.func3t == 0#3 then
    { c with
      xdfaCounters := fun _ => 0
      xdfaFinalCounters := fun _ => 0
      xdfaPendingMask := 0 }
  else if numericDfaLocalFire i && i.func3t == 3#3 then
    { c with
      xdfaCounters := fun s =>
        if i.reg_v1.getLsbD s then r.xdfaCounters s + 1 else c.xdfaCounters s }
  else c

end NumericDfa
end Core
end Jyd
