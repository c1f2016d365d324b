import Jyd.Core.CommonDef

/-!
# ListReverse — in-place list reversal inside EXU

One init operation and one self-looping step operation share this controller.
The loop keeps its operand, its predecessor and a prefetched successor in private
registers, so that a step needs no register-file operand.
-/

namespace Jyd
namespace Core
namespace ListReverse

open Hdl

inductive State
  | idle
  | lookup
  | lookupResolve
  | loadRequest
  | loadResponse
  | storeRequest
  | done
  deriving DecidableEq, Repr

structure Regs where
  listReverseState : State
  listReverseCurrent : Word
  listReversePrevious : Word
  listReverseChainPrevious : Word
  listReverseNext : Word
  listReverseResult : Word
  listReverseLoopAddress : Word
  listReverseStepStoreCommitted : Bool
  listReverseLoopTaken : Bool
  listReversePrefetchValid : Bool
  listReversePrefetchHit : Bool
  listReversePrefetchData : Word
  listReverseLookupHit : Bool
  listReverseQueryAddress : Word

structure In where
  valid : Bool
  isListReverse : Bool
  isListReverseStep : Bool
  isListReverseLoop : Bool
  reg_v1 : Word
  reg_v2 : Word
  dcacheHit : Bool
  dcacheReadData : Word
  memReqFire : Bool
  memResp : Valid Word
  outFire : Bool

variable (r : Regs) (i : In)

def listReverseActiveCurrent : Word :=
  if i.isListReverseLoop then r.listReverseLoopAddress else i.reg_v1

/-- Acceptance of a new operation: latch the node and choose the first phase. -/
def start : Regs :=
  let active := listReverseActiveCurrent r i
  let usePrefetch := i.isListReverseLoop && r.listReversePrefetchValid
  let n :=
    { r with
      listReverseNext := r.listReversePrefetchData
      listReversePrefetchValid := false
      listReverseStepStoreCommitted := false
      listReverseCurrent := active
      listReverseQueryAddress :=
        if i.isListReverseLoop then r.listReversePrefetchData else active
      listReversePrevious :=
        if i.isListReverseLoop then r.listReverseChainPrevious else i.reg_v2
      listReverseChainPrevious :=
        if i.isListReverseStep then active else r.listReverseChainPrevious }
  if active == 0#32 then
    { n with
      listReverseResult := if i.isListReverseLoop then r.listReverseChainPrevious else 0
      listReverseLoopTaken := false
      listReverseState := .done }
  else if i.isListReverseLoop then
    { n with
      listReverseState :=
        if usePrefetch && r.listReversePrefetchHit then .storeRequest else .loadRequest }
  else
    -- the init address is registered before the asynchronous cache is consulted
    { n with listReverseState := .lookup }

def control : Regs :=
  if r.listReverseState == .idle && i.valid && i.isListReverse then start r i
  else if r.listReverseState == .lookup then
    { r with
      listReverseLookupHit := i.dcacheHit
      listReverseState := .lookupResolve }
  else if r.listReverseState == .lookupResolve then
    { r with
      listReverseQueryAddress := i.dcacheReadData
      listReverseNext := i.dcacheReadData
      listReverseState := if r.listReverseLookupHit then .storeRequest else .loadRequest }
  else if r.listReverseState == .loadRequest && i.memReqFire then
    { r with listReverseState := .loadResponse }
  else if r.listReverseState == .loadResponse && i.memResp.valid then
    { r with
      listReverseQueryAddress := i.memResp.bits
      listReverseNext := i.memResp.bits
      listReverseState := .storeRequest }
  else if r.listReverseState == .storeRequest && i.memReqFire then
    let loopTaken := i.isListReverseLoop && r.listReverseNext != 0#32
    { r with
      listReverseStepStoreCommitted := true
      listReversePrefetchHit :=
        if r.listReverseNext == r.listReverseCurrent then true else i.dcacheHit
      listReverseResult :=
        if i.isListReverseLoop && !loopTaken then r.listReverseCurrent else r.listReverseNext
      listReverseLoopTaken := loopTaken
      listReverseState := .done }
  else if r.listReverseState == .done && i.outFire then
    { r with
      listReversePrefetchValid := r.listReverseNext != 0#32
      listReversePrefetchData :=
        if r.listReverseNext == r.listReverseCurrent then r.listReversePrevious
        else i.dcacheReadData
      listReverseState := .idle }
  else r

/-- The result is copied to the loop operand at the done boundary. -/
def next : Regs :=
  { control r i with
    listReverseLoopAddress :=
      if r.listReverseState == .done then r.listReverseResult else r.listReverseLoopAddress }

end ListReverse
end Core
end Jyd
