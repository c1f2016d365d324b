import Jyd.Core.CommonDef

/-!
# MatrixSum — the clipped matrix reduction inside EXU

The controller reads the matrix word by word.  A response is registered and
accumulated one cycle later, while the next request is already out.
-/

namespace Jyd
namespace Core
namespace MatrixSum

open Hdl

inductive State
  | idle
  | request
  | response
  | finalizeResult
  | done
  deriving DecidableEq, Repr

structure Regs where
  xmsumState : State
  xmsumAddress : Word
  xmsumSize : BitVec 16
  xmsumRow : BitVec 16
  xmsumColumn : BitVec 16
  xmsumClip : Word
  xmsumTmp : Word
  xmsumPreviousClipped : Bool
  xmsumPrev : Word
  xmsumRet : BitVec 16
  xmsumResponseData : Word
  xmsumResponsePending : Bool
  xmsumResult : Word

structure In where
  valid : Bool
  isXmsum : Bool
  reg_v1 : Word
  reg_v2 : Word
  memReqFire : Bool
  memResp : Valid Word
  outFire : Bool

variable (r : Regs) (i : In)

def xmsumResponseSum : Word :=
  (if r.xmsumPreviousClipped then 0 else r.xmsumTmp) + r.xmsumResponseData

def xmsumResponseClipped : Bool := r.xmsumClip.slt (xmsumResponseSum r)

def xmsumResponseIncreased : Bool :=
  !xmsumResponseClipped r && r.xmsumPrev.slt r.xmsumResponseData

def xmsumResponseNextRet : BitVec 16 :=
  if xmsumResponseClipped r then r.xmsumRet + 10
  else if xmsumResponseIncreased r then r.xmsumRet + 1
  else r.xmsumRet

def control : Regs :=
  if r.xmsumState == .idle && i.valid && i.isXmsum then
    let n := i.reg_v2.extractLsb' 16 16
    let s :=
      { r with
        xmsumAddress := i.reg_v1
        xmsumSize := n
        xmsumRow := 0
        xmsumColumn := 0
        xmsumClip := (i.reg_v2.extractLsb' 0 16).signExtend 32
        xmsumTmp := 0
        xmsumPreviousClipped := false
        xmsumPrev := 0
        xmsumRet := 0
        xmsumResponsePending := false }
    if n == 0#16 then { s with xmsumResult := 0, xmsumState := .done }
    else { s with xmsumState := .request }
  else if r.xmsumState == .request && i.memReqFire then
    { r with xmsumState := .response }
  else if r.xmsumState == .response && i.memResp.valid then
    let s := { r with xmsumResponseData := i.memResp.bits }
    let endOfRow := r.xmsumColumn + 1 == r.xmsumSize
    let endOfMatrix := endOfRow && r.xmsumRow + 1 == r.xmsumSize
    if endOfMatrix then { s with xmsumState := .finalizeResult }
    else
      { s with
        xmsumAddress := r.xmsumAddress + 4
        xmsumRow := if endOfRow then r.xmsumRow + 1 else r.xmsumRow
        xmsumColumn := if endOfRow then 0 else r.xmsumColumn + 1
        xmsumResponsePending := true
        xmsumState := .request }
  else if r.xmsumState == .finalizeResult then
    { r with
      xmsumResult := (xmsumResponseNextRet r).signExtend 32
      xmsumState := .done }
  else if r.xmsumState == .done && i.outFire then
    { r with xmsumState := .idle }
  else r

/-- The registered response is accumulated in the following request or final cycle. -/
def next : Regs :=
  let c := control r i
  if (r.xmsumState == .request && r.xmsumResponsePending) || r.xmsumState == .finalizeResult then
    { c with
      xmsumTmp := xmsumResponseSum r
      xmsumPreviousClipped := xmsumResponseClipped r
      xmsumPrev := r.xmsumResponseData
      xmsumRet := xmsumResponseNextRet r
      xmsumResponsePending := false }
  else c

end MatrixSum
end Core
end Jyd
