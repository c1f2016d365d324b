import Jyd.Hdl.SpecQueue
import Jyd.Core.Top
import Jyd.Core.Prediction

/-!
# Flight — the instructions between fetch and execute

The three stages in front of EXU's handshake, read as one queue of packets.  On a
clock edge the queue loses at most its head, gains at most one fetched packet, and
otherwise only discards packets that the epoch filter or a late redirect kills.
-/

namespace Jyd
namespace Core
namespace CPUCore

open Hdl TrimmedPC SpecQueue

/-! ## Packets -/

def exuPacket (d : DecodedInst) : Packet (BitVec 15) where
  epoch := d.epoch
  pc := trim d.pc
  next := if d.info.notBranchPredWrong then none else some (EXU.predictedNext d)

def iduPacket (f : FetchedInst) : Packet (BitVec 15) where
  epoch := f.epoch
  pc := trim f.pc
  next := some (trim f.pred.pc)

def ifuPacket (q : IFU.Request) : Packet (BitVec 15) where
  epoch := q.epoch
  pc := trim q.pc
  next := some (trim q.pred.pc)

def exuSlot (r : Regs) : List (Packet (BitVec 15)) :=
  if r.exuPipe.valid then [exuPacket r.exuPipe.bits] else []

def iduSlot (r : Regs) : List (Packet (BitVec 15)) :=
  if r.iduPipe.valid then [iduPacket r.iduPipe.bits] else []

def ifuSlot (f : IFU.Regs) : List (Packet (BitVec 15)) :=
  match f.state with
  | .idle => []
  | .waitReq => [ifuPacket f.pending]
  | .waitResp => [ifuPacket f.req]
  | .waitOut => [ifuPacket f.req]

/-- Everything in flight, oldest first. -/
def flight (r : Regs) : List (Packet (BitVec 15)) := exuSlot r ++ (iduSlot r ++ ifuSlot r.ifu)

/-- The packet that the front end offers to IFU. -/
def fetched (r : Regs) : Packet (BitVec 15) where
  epoch := r.pipelineEpoch
  pc := trim (pcFeedToIFU r)
  next := some (trim (fetchPrediction r).pc)

/-! ## What the stages hold -/

/-- An accepted request carries a whole pc and a checkable prediction. -/
structure RequestOk (prog : Program) (q : IFU.Request) : Prop where
  pc : q.pc = expand (trim q.pc)
  pred : PredOk prog (trim q.pc) q.pred

structure FetchedOk (prog : Program) (f : FetchedInst) : Prop where
  pc : f.pc = expand (trim f.pc)
  code : f.code = prog (trim f.pc)
  pred : PredOk prog (trim f.pc) f.pred

structure DecodedOk (prog : Program) (d : DecodedInst) : Prop where
  decoded : Decoded d
  pc : d.pc = expand (trim d.pc)
  code : d.code = prog (trim d.pc)

structure FrontOk (prog : Program) (r : Regs) : Prop where
  pc : r.pc = expand (trim r.pc)
  waitReq : r.ifu.state = .waitReq → RequestOk prog r.ifu.pending
  waitResp : r.ifu.state = .waitResp → RequestOk prog r.ifu.req
  waitOut : r.ifu.state = .waitOut →
    RequestOk prog r.ifu.req ∧ r.ifu.instReg = prog (trim r.ifu.req.pc)
  idu : r.iduPipe.valid = true → FetchedOk prog r.iduPipe.bits
  exu : r.exuPipe.valid = true → DecodedOk prog r.exuPipe.bits
  btb : BTB.Ok prog r.btb
  update : r.branchUpdateFireReg = true → BTB.UpdateOk prog (btbUpdate r)

/-- The instruction memory answers the outstanding request, and nothing else. -/
structure RomAnswers (prog : Program) (r : Regs) (i : In) : Prop where
  expected : i.iromResp.valid = true → r.ifu.state = .waitResp
  word : i.iromResp.valid = true → i.iromResp.bits = prog (trim r.ifu.req.pc)

variable {prog : Program} {r : Regs} {i : In}

/-! ## Back-pressure -/

/-- LSU and WBU never stall. -/
theorem exuOutReady_eq (r : Regs) : exuOutReady r = true := by
  simp [exuOutReady, lsuInReady, Pipe.allowIn]

theorem lsuPipe_next (r : Regs) (i : In) :
    (next r i).lsuPipe = ⟨exuOutValid r i, EXU.outBits r.exu (exuIn r i)⟩ := by
  simp [next, Pipe.next, Pipe.allowIn, lsuInReady]

theorem wbuPipe_next (r : Regs) (i : In) :
    (next r i).wbuPipe =
      ⟨r.lsuPipe.valid, LSU.outBits r.lsuPipe (DCache.readData r.dcache)⟩ := by
  simp [next, Pipe.next, Pipe.allowIn]

theorem exuInValid_iff :
    exuInValid r = true ↔
      r.exuPipe.valid = true ∧ r.exuPipe.bits.epoch = r.pipelineEpoch ∧ lateRedirectKill r = false := by
  simp [exuInValid, exuEpochMatch, and_assoc]

/-! ## Movement through the stages -/

theorem fetchPrediction_ok (h : FrontOk prog r) :
    pcFeedToIFU r = expand (trim (pcFeedToIFU r)) ∧
      PredOk prog (trim (pcFeedToIFU r)) (fetchPrediction r) := by
  cases hp : r.redirectPendingReg with
  | true =>
    have hfeed : pcFeedToIFU r = expand (redirectTarget r) := by simp [pcFeedToIFU, hp]
    have hpred : fetchPrediction r =
        { hit := false, take := false, pc := expand (redirectTarget r) + 4 } := by
      simp [fetchPrediction, hp, hfeed]
    rw [hpred, hfeed, trim_expand]
    exact ⟨rfl, predOk_fallThrough prog _⟩
  | false =>
    have hfeed : pcFeedToIFU r = r.pc := by simp [pcFeedToIFU, hp]
    have hpred : fetchPrediction r =
        BranchPredictor.pred r.bp r.pc (BTB.query r.btb r.pc) := by
      simp [fetchPrediction, hp]
    rw [hpred, hfeed]
    refine ⟨h.pc, ?_⟩
    have hok := BranchPredictor.predOk (r := r.bp) h.btb (trim r.pc)
    rw [← h.pc] at hok
    exact hok

theorem ifuSlot_out {f : IFU.Regs} {j : IFU.In} (h : IFU.outValid f j = true) :
    ifuSlot f = [iduPacket (IFU.outBits f j)] := by
  cases hs : f.state <;>
    simp_all [IFU.outValid, IFU.isWaitingRespMeetValid, ifuSlot, iduPacket, ifuPacket, IFU.outBits]

/-- IFU keeps its request until IDU takes it, and then accepts the offered pc. -/
theorem ifuSlot_next {f : IFU.Regs} {j : IFU.In} (hv : j.pcValid = true) :
    ifuSlot (IFU.next f j) =
      (if IFU.outValid f j && j.outReady then [] else ifuSlot f) ++
        (if IFU.pcReady f j then [ifuPacket (IFU.accepted f j)] else []) := by
  cases hs : f.state <;> cases hm : j.memReqReady <;> cases hr : j.memResp.valid <;>
    cases ho : j.outReady <;>
      simp [ifuSlot, IFU.next, IFU.nxtStateWhenAcceptInput, IFU.outValid, IFU.pcReady_eq,
        IFU.isWaitingRespMeetValid, IFU.inputReqFire, IFU.pendingReqFire, IFU.pendingReqValid,
        IFU.pcFire, hs, hm, hr, ho, hv]

/-- A pc is only accepted into an empty slot. -/
theorem ifuSlot_empty_of_ready {f : IFU.Regs} {j : IFU.In} (h : IFU.pcReady f j = true) :
    (if IFU.outValid f j && j.outReady then [] else ifuSlot f) = [] := by
  cases hs : f.state <;> cases ho : j.outReady <;>
    simp_all [IFU.pcReady_eq, IFU.isWaitingRespMeetValid, IFU.outValid, ifuSlot]

theorem iduSlot_next (r : Regs) (i : In) :
    iduSlot (next r i) =
      (if r.iduPipe.valid && !iduPipeReady r i then iduSlot r else []) ++
        (if r.iduPipe.allowIn (iduPipeReady r i) && IFU.outValid r.ifu (ifuIn r i) then
          [iduPacket (IFU.outBits r.ifu (ifuIn r i))] else []) := by
  cases hv : r.iduPipe.valid <;> cases hr : iduPipeReady r i <;>
    simp [iduSlot, next, Pipe.next, Pipe.allowIn, hv, hr]

theorem exuSlot_next (r : Regs) (i : In) :
    exuSlot (next r i) =
      (if r.exuPipe.valid && !exuPipeReady r i then exuSlot r else []) ++
        (if r.exuPipe.allowIn (exuPipeReady r i) && IDU.outValid (iduIn r i) then
          [exuPacket (IDU.outBits (iduIn r i))] else []) := by
  cases hv : r.exuPipe.valid <;> cases hr : exuPipeReady r i <;>
    simp [exuSlot, next, Pipe.next, Pipe.allowIn, hv, hr]

/-- Decoding a packet keeps its prediction or withdraws it. -/
theorem weaker_outBits (h : FrontOk prog r) (hv : r.iduPipe.valid = true) :
    Packet.Weaker (iduPacket r.iduPipe.bits) (exuPacket (IDU.outBits (iduIn r i))) := by
  have hf := h.idu hv
  refine ⟨rfl, rfl, ?_⟩
  cases hw : IDU.notBranchPredWrong (iduIn r i) with
  | true =>
    left
    have hw' : (IDU.outBits (iduIn r i)).info.notBranchPredWrong = true := hw
    simp [exuPacket, hw']
  | false =>
    right
    have hw' : (IDU.outBits (iduIn r i)).info.notBranchPredWrong = false := hw
    have hnext := IDU.predictedNext_outBits (j := iduIn r i) hf.pc hf.code hf.pred hw
    simp only [exuPacket, hw', Bool.false_eq_true, if_false, hnext]
    rfl

/-- The packets that may disappear without being executed. -/
def Killed (r : Regs) (p : Packet (BitVec 15)) : Prop :=
  p.epoch ≠ r.pipelineEpoch ∨ lateRedirectKill r = true

theorem moves_iduSlot (h : FrontOk prog r) (i : In) :
    Moves (Killed r) (iduSlot r)
      ((if r.exuPipe.allowIn (exuPipeReady r i) && IDU.outValid (iduIn r i) then
          [exuPacket (IDU.outBits (iduIn r i))] else []) ++
        (if r.iduPipe.valid && !iduPipeReady r i then iduSlot r else [])) := by
  cases hv : r.iduPipe.valid with
  | false =>
    simp only [IDU.outValid, iduIn, hv, Bool.false_and, Bool.and_false, Bool.false_eq_true,
      if_false, iduSlot]
    exact Moves.nil
  | true =>
    cases hm : iduEpochMatch r with
    | false =>
      -- a stale packet is dropped
      have hready : iduPipeReady r i = true := by simp [iduPipeReady, hm]
      simp only [IDU.outValid, iduIn, hv, hm, hready, Bool.false_and, Bool.and_false,
        Bool.not_true, Bool.false_eq_true, if_false, iduSlot, if_true]
      refine Moves.drop (Or.inl ?_) Moves.nil
      simpa [iduEpochMatch, iduPacket] using hm
    | true =>
      cases hstall : IDU.needStall (iduIn r i) with
      | true =>
        simp only [IDU.outValid, iduPipeReady, IDU.inReady, hstall, hm, Bool.not_true,
          Bool.and_false, Bool.false_or, Bool.not_false, Bool.and_true, Bool.false_eq_true,
          if_false, if_true, List.nil_append]
        exact Moves.refl _
      | false =>
        have hin : (iduIn r i).valid = true := by simp [iduIn, hv, hm]
        cases ha : r.exuPipe.allowIn (exuPipeReady r i) with
        | false =>
          have hout : (iduIn r i).outReady = false := ha
          have hready : iduPipeReady r i = false := by
            simp [iduPipeReady, IDU.inReady, hm, hout]
          simp only [hready, Bool.false_and, Bool.not_false, Bool.and_true,
            Bool.false_eq_true, if_false, if_true, List.nil_append]
          exact Moves.refl _
        | true =>
          have hout : (iduIn r i).outReady = true := ha
          have hready : iduPipeReady r i = true := by
            simp [iduPipeReady, IDU.inReady, hstall, hout]
          simp only [IDU.outValid, hin, hstall, hready, Bool.not_false, Bool.and_true,
            Bool.not_true, Bool.and_false, Bool.false_eq_true, if_false, if_true, iduSlot,
            hv, List.append_nil]
          exact Moves.keep (weaker_outBits h hv) Moves.nil

theorem moves_exuSlot (r : Regs) (i : In) :
    Moves (Killed r) (if exuInFire r i then [] else exuSlot r)
      (if r.exuPipe.valid && !exuPipeReady r i then exuSlot r else []) := by
  cases hfire : exuInFire r i with
  | true =>
    have hready : exuPipeReady r i = true := by
      simp only [exuInFire, EXU.inFire, Bool.and_eq_true] at hfire
      simp [exuPipeReady, hfire.2]
    simp only [hready, Bool.not_true, Bool.and_false, Bool.false_eq_true, if_false, if_true]
    exact Moves.nil
  | false =>
    cases hv : r.exuPipe.valid with
    | false =>
      simp only [exuSlot, hv, Bool.false_and, Bool.false_eq_true, if_false]
      exact Moves.nil
    | true =>
      cases hready : exuPipeReady r i with
      | false =>
        simp only [Bool.not_false, Bool.and_true, Bool.false_eq_true, if_false, if_true]
        exact Moves.refl _
      | true =>
        simp only [exuSlot, hv, Bool.not_true, Bool.and_false, Bool.false_eq_true, if_false,
          if_true]
        refine Moves.drop ?_ Moves.nil
        -- a live instruction that EXU did not take has no reason to leave
        by_contra hlive
        have hlive' : exuEpochMatch r = true ∧ lateRedirectKill r = false := by
          simpa [Killed, exuEpochMatch, exuPacket] using hlive
        have hin : exuInValid r = true := by
          simp [exuInValid, hv, hlive'.1, hlive'.2]
        have hnot : EXU.inReady r.exu (exuIn r i) = false := by
          have hval : (exuIn r i).valid = true := hin
          simpa [exuInFire, EXU.inFire, hval] using hfire
        simp [exuPipeReady, hnot, hlive'.1, hlive'.2] at hready

theorem ifuSlot_of_next : ifuSlot (next r i).ifu =
    (if IFU.outValid r.ifu (ifuIn r i) && (ifuIn r i).outReady then [] else ifuSlot r.ifu) ++
      (if ifuPcReady r i then [fetched r] else []) :=
  ifuSlot_next rfl

/-- One clock edge of the queue. -/
theorem flight_next (h : FrontOk prog r) :
    ∃ q, Moves (Killed r) (if exuInFire r i then (flight r).tail else flight r) q ∧
      flight (next r i) = q ++ if ifuPcReady r i then [fetched r] else [] := by
  have hifu : ifuSlot r.ifu =
      (if r.iduPipe.allowIn (iduPipeReady r i) && IFU.outValid r.ifu (ifuIn r i) then
          [iduPacket (IFU.outBits r.ifu (ifuIn r i))] else []) ++
        (if IFU.outValid r.ifu (ifuIn r i) && (ifuIn r i).outReady then [] else ifuSlot r.ifu) := by
    have hout : (ifuIn r i).outReady = r.iduPipe.allowIn (iduPipeReady r i) := rfl
    rw [hout]
    cases hv : IFU.outValid r.ifu (ifuIn r i) with
    | false => simp
    | true =>
      rw [ifuSlot_out hv]
      cases r.iduPipe.allowIn (iduPipeReady r i) <;> simp
  have hhead : (if exuInFire r i then (flight r).tail else flight r) =
      (if exuInFire r i then [] else exuSlot r) ++ (iduSlot r ++ ifuSlot r.ifu) := by
    cases hfire : exuInFire r i with
    | false => simp [flight]
    | true =>
      have hv : r.exuPipe.valid = true := by
        simp only [exuInFire, EXU.inFire, Bool.and_eq_true] at hfire
        exact (exuInValid_iff.mp hfire.1).1
      simp [flight, exuSlot, hv]
  rw [hhead]
  refine ⟨_, (moves_exuSlot r i).append ((moves_iduSlot h i).append (Moves.refl (ifuSlot r.ifu))), ?_⟩
  rw [flight, exuSlot_next, iduSlot_next, ifuSlot_of_next]
  -- what IDU took from IFU and what IFU kept is the old slot
  generalize (if IFU.outValid r.ifu (ifuIn r i) && (ifuIn r i).outReady then [] else ifuSlot r.ifu)
    = kept at hifu
  rw [hifu]
  simp only [List.append_assoc]

/-! ## The stages keep what they may hold -/

theorem requestOk_accepted (h : FrontOk prog r) :
    RequestOk prog (IFU.accepted r.ifu (ifuIn r i)) :=
  ⟨(fetchPrediction_ok h).1, (fetchPrediction_ok h).2⟩

/-- Whatever IFU holds next is an old request or the accepted one. -/
theorem ifu_next_ok (h : FrontOk prog r) (hrom : RomAnswers prog r i) :
    ((next r i).ifu.state = .waitReq → RequestOk prog (next r i).ifu.pending) ∧
      ((next r i).ifu.state = .waitResp → RequestOk prog (next r i).ifu.req) ∧
      ((next r i).ifu.state = .waitOut →
        RequestOk prog (next r i).ifu.req ∧
          (next r i).ifu.instReg = prog (trim (next r i).ifu.req.pc)) := by
  have hnew := requestOk_accepted (i := i) h
  have hpcv : (ifuIn r i).pcValid = true := rfl
  have hresp : (ifuIn r i).memResp = i.iromResp := rfl
  have hnext : (next r i).ifu = IFU.next r.ifu (ifuIn r i) := rfl
  rw [hnext]
  -- the pc of a request is known good when it is accepted and only moves between registers
  cases hs : r.ifu.state with
  | idle =>
    cases hm : (ifuIn r i).memReqReady <;>
      simp [IFU.next, IFU.nxtStateWhenAcceptInput, IFU.inputReqFire, IFU.pcFire, IFU.pcReady,
        hs, hm, hpcv, hnew]
  | waitReq =>
    have hreq := h.waitReq hs
    cases hm : (ifuIn r i).memReqReady <;>
      simp [IFU.next, IFU.inputReqFire, IFU.pcFire, IFU.pcReady_eq, IFU.pendingReqFire,
        IFU.pendingReqValid, hs, hm, hreq]
  | waitResp =>
    have hreq := h.waitResp hs
    cases hv : i.iromResp.valid with
    | false =>
      simp [IFU.next, IFU.inputReqFire, IFU.pcFire, IFU.pcReady_eq, IFU.pendingReqFire,
        IFU.pendingReqValid, hs, hresp, hv, hreq]
    | true =>
      have hword := hrom.word hv
      cases hm : (ifuIn r i).memReqReady <;> cases ho : (ifuIn r i).outReady <;>
        simp [IFU.next, IFU.nxtStateWhenAcceptInput, IFU.inputReqFire, IFU.pcFire, IFU.pcReady_eq,
          IFU.pendingReqFire, IFU.pendingReqValid, hs, hm, ho, hresp, hv, hpcv, hreq, hnew, hword]
  | waitOut =>
    have hreq := h.waitOut hs
    -- the ROM has nothing to answer once the word is in `instReg`
    have hv : i.iromResp.valid = false :=
      Bool.eq_false_iff.mpr fun hv => by simp [hrom.expected hv] at hs
    cases hm : (ifuIn r i).memReqReady <;> cases ho : (ifuIn r i).outReady <;>
      simp [IFU.next, IFU.nxtStateWhenAcceptInput, IFU.inputReqFire, IFU.pcFire, IFU.pcReady_eq,
        IFU.pendingReqFire, IFU.pendingReqValid, hs, hm, ho, hresp, hv, hpcv, hreq, hnew]

theorem fetchedOk_out (h : FrontOk prog r) (hrom : RomAnswers prog r i)
    (hv : IFU.outValid r.ifu (ifuIn r i) = true) :
    FetchedOk prog (IFU.outBits r.ifu (ifuIn r i)) := by
  have hstate : (r.ifu.state = .waitResp ∧ i.iromResp.valid = true) ∨ r.ifu.state = .waitOut := by
    simpa [IFU.outValid, IFU.isWaitingRespMeetValid, ifuIn] using hv
  rcases hstate with ⟨hs, hresp⟩ | hs
  · have hreq := h.waitResp hs
    refine ⟨hreq.pc, ?_, hreq.pred⟩
    simp only [IFU.outBits, IFU.inst, ifuIn, hresp, if_true]
    exact hrom.word hresp
  · have hreq := h.waitOut hs
    have hno : i.iromResp.valid = false :=
      Bool.eq_false_iff.mpr fun hresp => by simp [hrom.expected hresp] at hs
    refine ⟨hreq.1.pc, ?_, hreq.1.pred⟩
    simp only [IFU.outBits, IFU.inst, ifuIn, hno, Bool.false_eq_true, if_false]
    exact hreq.2

theorem frontOk_next (h : FrontOk prog r) (hrom : RomAnswers prog r i)
    (hv : exuOutFire r i = true → r.exuPipe.valid = true) : FrontOk prog (next r i) where
  pc := by simp only [next, trim_expand]
  waitReq := (ifu_next_ok h hrom).1
  waitResp := (ifu_next_ok h hrom).2.1
  waitOut := (ifu_next_ok h hrom).2.2
  idu := by
    intro hvalid
    cases ha : r.iduPipe.allowIn (iduPipeReady r i) with
    | true =>
      simp only [next, Pipe.next, ha, if_true] at hvalid ⊢
      exact fetchedOk_out h hrom hvalid
    | false =>
      simp only [next, Pipe.next, ha, Bool.false_eq_true, if_false] at hvalid ⊢
      exact h.idu hvalid
  exu := by
    intro hvalid
    cases ha : r.exuPipe.allowIn (exuPipeReady r i) with
    | true =>
      simp only [next, Pipe.next, ha, if_true] at hvalid ⊢
      have hidu : r.iduPipe.valid = true := by
        simp only [IDU.outValid, iduIn, Bool.and_eq_true] at hvalid
        exact hvalid.1.1
      exact ⟨⟨_, rfl⟩, (h.idu hidu).pc, (h.idu hidu).code⟩
    | false =>
      simp only [next, Pipe.next, ha, Bool.false_eq_true, if_false] at hvalid ⊢
      exact h.exu hvalid
  btb := BTB.ok_next h.btb h.update
  update := by
    intro hfire
    -- the update register is loaded by an instruction that leaves EXU
    have hout : exuOutFire r i = true := by
      simp only [next, Bool.and_eq_true] at hfire
      exact hfire.1
    have hd := h.exu (hv hout)
    simp only [btbUpdate, next, hout, if_true, branchUpdateNext]
    exact EXU.branchUpdate_ok (i := exuIn r i) hd.decoded hd.pc hd.code _ _

end CPUCore
end Core
end Jyd
