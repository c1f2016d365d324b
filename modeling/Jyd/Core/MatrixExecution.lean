import Jyd.Hdl.LeadsTo
import Jyd.Core.Exu.MatrixTraversal
import Jyd.Core.Execution

/-!
# MatrixExecution — the clipped matrix sum as EXU executes it

EXU works on one instruction from a state at rest, behind a memory that accepts requests
whenever it likes and answers each of them once, after any delay.  The port then sees the
words of the matrix in order and nothing else, and the result is the one of the reference
simulator.
-/

namespace Jyd
namespace Core

open Hdl Nemu

namespace EXU

def fromVacant : Machine In Regs where
  init := Vacant
  next := fun i r => next r i

/-! ## The memory behind the port -/

/-- The request that the memory accepts in a cycle. -/
def portRequest (i : In) (r : Regs) : Option MemReq :=
  if memReqFire r i then some (memReq r i) else none

section Memory

variable (R : Run fromVacant)

/-- The requests accepted in the first `t` cycles. -/
def requests (t : ℕ) : List MemReq := R.events portRequest t

/-- The request that waits for its answer at the beginning of cycle `t`. -/
def outstanding : ℕ → Option MemReq :=
  R.observe none fun i r g => MatrixSum.outstandingNext (portRequest i r) i.memResp.valid g

/-- The first response after an accepted read is the word at its address. -/
def Serves (pmem : Pmem) : Prop :=
  ∀ t q, outstanding R t = some q → q.wen = false → (R.input t).memResp.valid = true →
    (R.input t).memResp.bits = vaddrRead pmem (q.addr &&& ~~~3#32)

/-- Offered requests and results are taken some time, and accepted requests answered. -/
structure Fair : Prop where
  ready : ∀ t, (∀ u, t ≤ u → memReqValid (R.state u) (R.input u) = true) →
    ∃ u, t ≤ u ∧ (R.input u).memReqReady = true
  answered : ∀ t q, outstanding R t = some q → ∃ u, t ≤ u ∧ (R.input u).memResp.valid = true
  taken : ∀ t, (∀ u, t ≤ u → outValid (R.state u) (R.input u) = true) →
    ∃ u, t ≤ u ∧ (R.input u).outReady = true

/-- `d` has not left EXU before cycle `t`. -/
def Waits (t : ℕ) : Prop := ∀ v < t, inFire (R.state v) (R.input v) = false

/-- EXU is given `d` until it takes it. -/
def Presents (d : DecodedInst) : Prop :=
  ∀ t, Waits R t → (R.input t).valid = true ∧ (R.input t).dinst = d

end Memory

/-! ## The instruction -/

/-- An instruction word with the encoding of the clipped sum. -/
theorem isXmsum_of_code {d : DecodedInst} (hd : Decoded d)
    (h : d.code &&& 0xfe00707f#32 = 0x0400700b#32) : isXmsum d = true := by
  rcases hd with ⟨j, rfl⟩
  have hfield : ∀ a n, (0xfe00707f#32).extractLsb' a n = BitVec.allOnes n →
      (IDU.inst j).extractLsb' a n = (0x0400700b#32).extractLsb' a n := by
    intro a n hmask
    have hcode : IDU.inst j &&& 0xfe00707f#32 = 0x0400700b#32 := h
    rw [← hcode, BitVec.extractLsb'_and, hmask, BitVec.and_allOnes]
  have h7 : IDU.func7 (IDU.inst j) = 2#7 := hfield 25 7 (by decide)
  have h3 : IDU.func3 (IDU.inst j) = 7#3 := hfield 12 3 (by decide)
  have hop : IDU.opcode (IDU.inst j) = 0b0001011#7 := hfield 0 7 (by decide)
  show IDU.isMatrixReduceCustom (IDU.inst j) = true
  simp [IDU.isMatrixReduceCustom, IDU.isCustom0, h7, h3, hop]

section Instruction

variable {r : Regs} {i : In} (hd : Decoded i.dinst) (hx : isXmsum i.dinst = true)

include hd hx

theorem not_other_of_xmsum :
    isNumericDfa i.dinst = false ∧ isNumericDfaStep i.dinst = false ∧
      isListReverse i.dinst = false := by
  have hdfa := not_numericDfa_of_xmsum hd hx
  refine ⟨hdfa, by simp [isNumericDfaStep, hdfa], Bool.eq_false_iff.mpr fun hl => ?_⟩
  exact Bool.false_ne_true ((not_xmsum_of_listReverse hd hl).symm.trans hx)

theorem outValid_of_xmsum : outValid r i = (r.xmsum.xmsumState == .done) := by
  rcases not_other_of_xmsum hd hx with ⟨_, hstep, hlist⟩
  simp [outValid, hstep, hlist, hx, xmsumDone]

theorem inFire_of_xmsum :
    inFire r i = (i.valid && (r.xmsum.xmsumState == .done && i.outReady)) := by
  rcases not_other_of_xmsum hd hx with ⟨_, hstep, hlist⟩
  simp [inFire, inReady, hstep, hlist, hx, xmsumDone]

/-- The lane of the accelerators is the only valid one. -/
theorem nonLoadData_of_xmsum :
    ResultLaneSelect.nonLoadData (writeBackInfo r i) = r.xmsum.xmsumResult := by
  rcases not_other_of_xmsum hd hx with ⟨hdfa, _, hlist⟩
  have hdata : acceleratorData r i = r.xmsum.xmsumResult := by
    simp [acceleratorData, hdfa, hlist, hx]
  have hkind : i.dinst.info.resultKind = .accelerator ∧ i.dinst.info.rdWrEn = true := by
    rcases hd with ⟨j, hj⟩
    rw [hj] at hx ⊢
    have hx' : IDU.isMatrixReduceCustom (IDU.inst j) = true := hx
    have hmeta := IDU.metaInfo_custom0 _ (IDU.opcode_of_xmsum _ hx').1
    refine ⟨?_, ?_⟩
    · simp [IDU.outBits, IDU.info, IDU.resultKind, IDU.isAccelerator, IDU.isTyp, hmeta, hx']
    · simp [IDU.outBits, IDU.info, IDU.rdWrEn, IDU.isTyp, hmeta]
  simp [ResultLaneSelect.nonLoadData, mux1H, writeBackInfo, resultIsFast, resultIsLong,
    resultIsAccelerator, hkind, hdata]

end Instruction

/-! ## The traversal inside EXU -/

section Traversal

variable {R : Run fromVacant} {pmem : Pmem} {d : DecodedInst}
  (hd : Decoded d) (hx : isXmsum d = true) (hheld : Presents R d)

theorem Waits.mono {t u : ℕ} (h : Waits R u) (htu : t ≤ u) : Waits R t :=
  fun v hv => h v (Nat.lt_of_lt_of_le hv htu)

theorem xmsum_succ (R : Run fromVacant) (t : ℕ) :
    (R.state (t + 1)).xmsum =
      MatrixSum.next (R.state t).xmsum (xmsumIn (R.state t) (R.input t)) := by
  rw [R.step t]
  rfl

/-- An accepted request is answered some time. -/
theorem response_progress (hfair : Fair R) {t k : ℕ} (hs : (R.state t).xmsum.xmsumState = .response)
    (hc : MatrixSum.Cursor (R.state t).xmsum.xmsumSize.toNat (R.state t).xmsum k) {q : MemReq}
    (hout : outstanding R t = some q) :
    ∃ u, MatrixSum.rank (R.state (u + 1)).xmsum < MatrixSum.rank (R.state t).xmsum := by
  have hstay : ∀ (i : In) (r : Regs), r.xmsum = (R.state t).xmsum → i.memResp.valid = false →
      (fromVacant.next i r).xmsum = (R.state t).xmsum := by
    intro i r hsame hno
    show MatrixSum.next r.xmsum (xmsumIn r i) = _
    rw [hsame]
    exact MatrixSum.response_waits hs hno
  obtain ⟨u, htu, hvalid, hkept, _⟩ := Run.first_event (R := R) (t := t)
    (P := fun r => r.xmsum = (R.state t).xmsum) (fun i _ => i.memResp.valid) rfl hstay
    fun _ => hfair.answered t q hout
  refine ⟨u, ?_⟩
  rw [xmsum_succ, hkept u htu le_rfl]
  exact MatrixSum.rank_lt_of_response hs hc hvalid

include hd hx hheld

/-- What EXU is given until the instruction leaves. -/
theorem given {t : ℕ} (hw : Waits R t) :
    (R.input t).valid = true ∧ Decoded (R.input t).dinst ∧ isXmsum (R.input t).dinst = true := by
  rcases hheld t hw with ⟨hv, hinst⟩
  rw [hinst]
  exact ⟨hv, hd, hx⟩

/-- A result that stays in EXU has not been taken. -/
theorem outFire_of_waits {t : ℕ} (hw : Waits R (t + 1)) :
    outFire (R.state t) (R.input t) = false := by
  rcases given hd hx hheld (hw.mono (Nat.le_succ t)) with ⟨hv, hdec, hkind⟩
  have hfire := hw t (Nat.lt_succ_self t)
  rw [inFire_of_xmsum hdec hkind, hv, Bool.true_and] at hfire
  rw [outFire, outValid_of_xmsum hdec hkind, hfire]

/-- The other controllers of the port stay at rest. -/
theorem others_idle {t : ℕ} (hw : Waits R t) :
    (R.state t).listReverse.listReverseState = .idle ∧
      (R.state t).numericDfa.xdfaWordState = .idle := by
  induction t with
  | zero => exact ⟨R.init.listReverse, R.init.numericDfa⟩
  | succ t ih =>
    have hbefore := hw.mono (Nat.le_succ t)
    rcases ih hbefore with ⟨hl, hn⟩
    rcases given hd hx hheld hbefore with ⟨_, hdec, hkind⟩
    rcases not_other_of_xmsum hdec hkind with ⟨_, hstep, hlist⟩
    rw [R.step t]
    refine ⟨listReverse_next_idle hl (by simp [listReverseIn, hlist]), ?_⟩
    refine numericDfa_next_idle hn ?_
    rw [show NumericDfa.isNumericDfaStep (numericDfaIn (R.state t) (R.input t)) =
      isNumericDfaStep (R.input t).dinst from rfl, hstep, Bool.and_false]

theorem memReqValid_at {t : ℕ} (hw : Waits R t) :
    memReqValid (R.state t) (R.input t) = MatrixSum.asks (R.state t).xmsum := by
  rcases given hd hx hheld hw with ⟨_, hdec, hkind⟩
  rcases others_idle hd hx hheld hw with ⟨hl, hn⟩
  have hm := not_needMemReq_of_arithmetic (isTypArithmetic_of_xmsum hdec hkind)
  simp [memReqValid_eq, asks, ListReverse.asks_of_idle hl, NumericDfa.asks_of_idle hn, hm]

/-- The controller's requests are the requests of the port. -/
theorem portRequest_at {t : ℕ} (hw : Waits R t) :
    portRequest (R.input t) (R.state t) =
      MatrixSum.accepted (R.state t).xmsum (xmsumIn (R.state t) (R.input t)) := by
  rcases given hd hx hheld hw with ⟨_, hdec, hkind⟩
  rcases not_other_of_xmsum hdec hkind with ⟨_, hstep, hlist⟩
  have hstore : listReverseStoreRequest (R.state t) = false := by
    simp [listReverseStoreRequest, (others_idle hd hx hheld hw).1]
  have hfire : memReqFire (R.state t) (R.input t) =
      (MatrixSum.asks (R.state t).xmsum && memReqFire (R.state t) (R.input t)) := by
    rw [memReqFire, memReqValid_at hd hx hheld hw, ← Bool.and_assoc, Bool.and_self]
  have hreq : memReq (R.state t) (R.input t) =
      MatrixSum.readWord (R.state t).xmsum.xmsumAddress := by
    simp [memReq, MatrixSum.readWord, hstep, hlist, hkind, hstore]
  rw [portRequest, MatrixSum.accepted, hreq]
  show (if memReqFire (R.state t) (R.input t) = true then _ else _) =
    if (MatrixSum.asks (R.state t).xmsum && memReqFire (R.state t) (R.input t)) = true then _ else _
  rw [← hfire]

theorem requests_succ {t : ℕ} (hw : Waits R t) :
    requests R (t + 1) = requests R t ++
      (MatrixSum.accepted (R.state t).xmsum (xmsumIn (R.state t) (R.input t))).toList := by
  rw [← portRequest_at hd hx hheld hw]
  rfl

theorem outstanding_succ {t : ℕ} (hw : Waits R t) :
    outstanding R (t + 1) = MatrixSum.outstandingNext
      (MatrixSum.accepted (R.state t).xmsum (xmsumIn (R.state t) (R.input t)))
      (R.input t).memResp.valid (outstanding R t) := by
  rw [← portRequest_at hd hx hheld hw]
  rfl

/-! ### Progress -/

/-- The request for element `k` is offered, with `n` handshakes still to come. -/
def Offers (k n : ℕ) (r : Regs) : Prop :=
  r.xmsum.xmsumState = .request ∧ MatrixSum.Cursor r.xmsum.xmsumSize.toNat r.xmsum k ∧
    MatrixSum.rank r.xmsum = n

section Progress

variable (hfair : Fair R) (hnever : ∀ t, Waits R t)

include hfair hnever

/-- A result would be taken some time. -/
theorem never_done (t : ℕ) : (R.state t).xmsum.xmsumState ≠ .done := by
  intro hdone
  -- a result that is not taken stays, and so does the offer
  have hstays : ∀ n, (R.state (t + n)).xmsum.xmsumState = .done := by
    intro n
    induction n with
    | zero => exact hdone
    | succ n ih =>
      have hout := outFire_of_waits hd hx hheld (hnever (t + n + 1))
      rw [← Nat.add_assoc, xmsum_succ, MatrixSum.done_waits ih hout]
      exact ih
  have hvalid : ∀ u, t ≤ u → outValid (R.state u) (R.input u) = true := by
    intro u hu
    rcases given hd hx hheld (hnever u) with ⟨_, hdec, hkind⟩
    obtain ⟨n, rfl⟩ := Nat.exists_eq_add_of_le hu
    rw [outValid_of_xmsum hdec hkind, hstays n]
    rfl
  rcases hfair.taken t hvalid with ⟨u, hu, hready⟩
  rcases given hd hx hheld (hnever u) with ⟨hv, hdec, hkind⟩
  obtain ⟨n, rfl⟩ := Nat.exists_eq_add_of_le hu
  have hfire := hnever (t + n + 1) (t + n) (Nat.lt_succ_self _)
  rw [inFire_of_xmsum hdec hkind, hv, hready, hstays n] at hfire
  exact absurd hfire (by decide)

/-- An offered request is accepted some time. -/
theorem request_progress {t k : ℕ} (hs : (R.state t).xmsum.xmsumState = .request)
    (hc : MatrixSum.Cursor (R.state t).xmsum.xmsumSize.toNat (R.state t).xmsum k) :
    ∃ u, MatrixSum.rank (R.state (u + 1)).xmsum < MatrixSum.rank (R.state t).xmsum := by
  -- the place of the traversal does not change while the request is offered
  have hstay : ∀ (i : In) (r : Regs), Offers k (MatrixSum.rank (R.state t).xmsum) r →
      memReqFire r i = false →
      Offers k (MatrixSum.rank (R.state t).xmsum) (fromVacant.next i r) := by
    intro i r ⟨hstate, hcursor, hrank⟩ hno
    rcases MatrixSum.request_next (i := xmsumIn r i) hstate with ⟨hsame, _, _, hnext⟩
    have hno' : (xmsumIn r i).memReqFire = false := hno
    rw [hno', if_neg (by decide)] at hnext
    have hcursor' : MatrixSum.Cursor (MatrixSum.next r.xmsum (xmsumIn r i)).xmsumSize.toNat
        (MatrixSum.next r.xmsum (xmsumIn r i)) k := by
      rw [hsame.size]
      exact hcursor.of_same hsame
    refine ⟨hnext, hcursor', ?_⟩
    show MatrixSum.rank (MatrixSum.next r.xmsum (xmsumIn r i)) = _
    rw [MatrixSum.rank_request hnext hcursor', hsame.size, ← MatrixSum.rank_request hstate hcursor,
      hrank]
  have hready : (∀ u, t ≤ u → Offers k (MatrixSum.rank (R.state t).xmsum) (R.state u)) →
      ∃ u, t ≤ u ∧ memReqFire (R.state u) (R.input u) = true := by
    intro hstays
    have hvalid : ∀ u, t ≤ u → memReqValid (R.state u) (R.input u) = true := by
      intro u hu
      rw [memReqValid_at hd hx hheld (hnever u), MatrixSum.asks, (hstays u hu).1]
      rfl
    rcases hfair.ready t hvalid with ⟨u, hu, hready⟩
    exact ⟨u, hu, by rw [memReqFire, hvalid u hu, hready]; rfl⟩
  obtain ⟨u, htu, hfire, hkept, _⟩ := Run.first_event (R := R) (t := t)
    (P := Offers k (MatrixSum.rank (R.state t).xmsum)) (fun i r => memReqFire r i) ⟨hs, hc, rfl⟩
    hstay hready
  rcases hkept u htu le_rfl with ⟨hstate, hcursor, hrank⟩
  refine ⟨u, ?_⟩
  rw [xmsum_succ, ← hrank]
  exact MatrixSum.rank_lt_of_fire hstate hcursor hfire

end Progress

/-! ### Phases -/

section Phases

variable (hmem : Serves R pmem) (halign : d.info.reg1.toNat % 4 = 0)

include hmem halign

/-- From its second cycle on the instruction is in a phase of the traversal. -/
theorem phase_at (t : ℕ) (hw : Waits R (t + 1)) :
    MatrixSum.Phase pmem d.info.reg1 d.info.reg2 (outstanding R (t + 1)) (requests R (t + 1))
      (R.state (t + 1)).xmsum := by
  induction t with
  | zero =>
    have h0 : Waits R 0 := fun v hv => absurd hv (Nat.not_lt_zero v)
    have hidle := R.init.xmsum
    have hacc : MatrixSum.accepted (R.state 0).xmsum (xmsumIn (R.state 0) (R.input 0)) = none :=
      MatrixSum.accepted_of_ne (by simp [hidle])
    rcases hheld 0 h0 with ⟨hv, hinst⟩
    rw [requests_succ hd hx hheld h0, hacc, xmsum_succ]
    exact MatrixSum.idle_next hidle hv (by rw [← hinst] at hx; exact hx)
      (by rw [← hinst]; rfl) (by rw [← hinst]; rfl)
  | succ t ih =>
    have hbefore := hw.mono (Nat.le_succ (t + 1))
    have hphase := ih hbefore
    rw [requests_succ hd hx hheld hbefore, outstanding_succ hd hx hheld hbefore,
      xmsum_succ R (t + 1)]
    by_cases hdone : (R.state (t + 1)).xmsum.xmsumState = .done
    · -- the result has not been taken, so nothing changes
      have hstays := outFire_of_waits hd hx hheld hw
      have hacc : MatrixSum.accepted (R.state (t + 1)).xmsum
          (xmsumIn (R.state (t + 1)) (R.input (t + 1))) = none :=
        MatrixSum.accepted_of_ne (by simp [hdone])
      rw [MatrixSum.done_waits hdone hstays, hacc]
      rcases hphase.of_done hdone with ⟨result, reads⟩
      exact .done hdone result ((List.append_nil _).trans reads)
    · -- the memory answers with the word of the element that was asked for
      refine hphase.next hdone ?_
      intro k hout hvalid
      have hdata := hmem (t + 1) _ hout rfl hvalid
      rw [show (MatrixSum.readWord (elementAddr d.info.reg1 k)).addr =
        elementAddr d.info.reg1 k from rfl, and_not_three (elementAddr_aligned halign k)] at hdata
      exact hdata

/-- In the cycle in which the instruction leaves, all words have been read. -/
theorem result_at {t : ℕ} (hw : Waits R t) (hfire : inFire (R.state t) (R.input t) = true) :
    requests R (t + 1) =
        MatrixSum.wordReads d.info.reg1 (matrixClippedSum pmem d.info.reg1 d.info.reg2).2 ∧
      ResultLaneSelect.nonLoadData (writeBackInfo (R.state t) (R.input t)) =
        (matrixClippedSum pmem d.info.reg1 d.info.reg2).1 := by
  rcases given hd hx hheld hw with ⟨_, hdec, hkind⟩
  have hdone : (R.state t).xmsum.xmsumState = .done := by
    rw [inFire_of_xmsum hdec hkind] at hfire
    simp only [Bool.and_eq_true, beq_iff_eq] at hfire
    exact hfire.2.1
  rw [requests_succ hd hx hheld hw, MatrixSum.accepted_of_ne (by simp [hdone]),
    nonLoadData_of_xmsum hdec hkind]
  cases t with
  | zero => exact absurd (R.init.xmsum.symm.trans hdone) (by decide)
  | succ t =>
    rcases (phase_at hd hx hheld hmem halign t hw).of_done hdone with ⟨result, reads⟩
    refine ⟨?_, result⟩
    rw [reads, matrixClippedSum, config_size]
    exact List.append_nil _

/-- The reads of an unfinished instruction are those of the first words. -/
theorem reads_at {t : ℕ} (hw : Waits R t) :
    ∃ k ≤ (matrixClippedSum pmem d.info.reg1 d.info.reg2).2,
      requests R t = MatrixSum.wordReads d.info.reg1 k := by
  have hsize : (matrixClippedSum pmem d.info.reg1 d.info.reg2).2 =
      (MatrixSum.size d.info.reg2).toNat * (MatrixSum.size d.info.reg2).toNat := by
    rw [matrixClippedSum, config_size]
    rfl
  rw [hsize]
  cases t with
  | zero => exact ⟨0, Nat.zero_le _, rfl⟩
  | succ t =>
    -- the element whose response is awaited has been requested already
    cases phase_at hd hx hheld hmem halign t hw with
    | request k _ _ cursor _ _ reads => exact ⟨k, Nat.le_of_lt cursor.lt, reads⟩
    | response k _ _ cursor _ _ _ _ reads => exact ⟨k + 1, cursor.lt, reads⟩
    | finalize _ _ reads => exact ⟨_, le_rfl, reads⟩
    | done _ _ reads => exact ⟨_, le_rfl, reads⟩

/-- Behind a fair memory the instruction leaves EXU. -/
theorem completes (hfair : Fair R) :
    ∃ t, Waits R t ∧ inFire (R.state t) (R.input t) = true := by
  by_contra hnone
  -- then the number of handshakes still to come would fall forever
  have hnever : ∀ t, Waits R t := by
    intro t
    induction t with
    | zero => exact fun v hv => absurd hv (Nat.not_lt_zero v)
    | succ t ih =>
      intro v hv
      rcases Nat.lt_succ_iff_lt_or_eq.mp hv with hlt | rfl
      · exact ih v hlt
      · exact Bool.eq_false_iff.mpr fun hfire => hnone ⟨v, ih, hfire⟩
  refine Run.not_descending (fun t => MatrixSum.rank (R.state (t + 1)).xmsum) fun t => ?_
  have hbusy := never_done hd hx hheld hfair hnever
  cases phase_at hd hx hheld hmem halign t (hnever (t + 1)) with
  | request k state params cursor _ _ _ =>
    exact request_progress hd hx hheld hfair hnever state (params.size ▸ cursor)
  | response k state params cursor _ _ _ out _ =>
    exact response_progress hfair state (params.size ▸ cursor) out
  | finalize state _ _ =>
    have hdone := (MatrixSum.finalize_next (i := xmsumIn (R.state (t + 1)) (R.input (t + 1)))
      state).1
    rw [← xmsum_succ] at hdone
    exact absurd hdone (hbusy (t + 2))
  | done state _ _ => exact absurd state (hbusy (t + 1))

end Phases

end Traversal

/-! ## The instruction against the reference -/

/-- For every matrix and clip value, and whenever the memory takes and answers requests, the
words of the matrix are read in order and nothing else is; the result that leaves EXU is
the one of the reference; and a fair memory lets the instruction leave. -/
theorem matrix_sum_matches_nemu (R : Run fromVacant) (pmem : Pmem) (d : DecodedInst)
    (hd : Decoded d) (hcode : d.code &&& 0xfe00707f#32 = 0x0400700b#32)
    (halign : d.info.reg1.toNat % 4 = 0) (hheld : Presents R d) (hmem : Serves R pmem) :
    (∀ t, Waits R t → ∃ k ≤ (matrixClippedSum pmem d.info.reg1 d.info.reg2).2,
      requests R t = MatrixSum.wordReads d.info.reg1 k) ∧
    (∀ t, Waits R t → inFire (R.state t) (R.input t) = true →
      requests R (t + 1) =
          MatrixSum.wordReads d.info.reg1 (matrixClippedSum pmem d.info.reg1 d.info.reg2).2 ∧
        ResultLaneSelect.nonLoadData (writeBackInfo (R.state t) (R.input t)) =
          (matrixClippedSum pmem d.info.reg1 d.info.reg2).1) ∧
    (Fair R → ∃ t, Waits R t ∧ inFire (R.state t) (R.input t) = true) := by
  have hx := isXmsum_of_code hd hcode
  refine ⟨?_, ?_, ?_⟩
  · intro t hw
    exact reads_at hd hx hheld hmem halign hw
  · intro t hw hfire
    exact result_at hd hx hheld hmem halign hw hfire
  · exact completes hd hx hheld hmem halign

/-- `xmsum x3, x1, x2` on the two by two matrix at `0x80100000`, with the clip value 5. -/
def matrixIDU : IDU.In :=
  { Soc.decoding 0x0420f18b#32 0x80100000#32 with rdata2 := 0x00020005#32 }

/-- A memory with `0x80` in every byte, always ready and always answering. -/
def matrixRun : Run fromVacant :=
  fromVacant.runFrom (fun _ => { Soc.exuOf matrixIDU with memResp := ⟨true, 0x80808080#32⟩ })
    Soc.PowerUp.exu ⟨rfl, rfl, rfl, rfl, rfl, rfl⟩

/-- The sum wraps to a positive one with every second word. -/
theorem matrix_sum_matches_nemu_wraps :
    ∃ t, requests matrixRun (t + 1) = MatrixSum.wordReads 0x80100000#32 4 ∧
      ResultLaneSelect.nonLoadData
        (writeBackInfo (matrixRun.state t) (matrixRun.input t)) = 20#32 := by
  have hword : ofBytes (fun _ => 0x80#8) = 0x80808080#32 := by decide
  have hmem : Serves matrixRun fun _ => 0x80#8 := fun _ _ _ _ _ => hword.symm
  have hfair : Fair matrixRun :=
    ⟨fun t _ => ⟨t, le_rfl, rfl⟩, fun t _ _ => ⟨t, le_rfl, rfl⟩, fun t _ => ⟨t, le_rfl, rfl⟩⟩
  have hrun := matrix_sum_matches_nemu matrixRun (fun _ => 0x80#8) (IDU.outBits matrixIDU)
    ⟨_, rfl⟩ (by decide) (by decide) (fun _ _ => ⟨rfl, rfl⟩) hmem
  rcases hrun.2.2 hfair with ⟨t, hwaits, hfire⟩
  rcases hrun.2.1 t hwaits hfire with ⟨hreads, hresult⟩
  have hbase : (IDU.outBits matrixIDU).info.reg1 = 0x80100000#32 := by decide
  have hconfig : (IDU.outBits matrixIDU).info.reg2 = 0x00020005#32 := by decide
  rw [hbase, hconfig] at hreads hresult
  exact ⟨t, hreads, hresult.trans (by decide)⟩

end EXU

/-! ## The instruction in the core -/

namespace CPUCore

variable {R : Run machine} {s : ℕ}

/-- EXU from the arrival of an instruction on. -/
def arrival (h : Issues R s) : Run EXU.fromVacant := (exuRun R).drop (s + 1) h.vacant

/-- The pipeline holds the instruction until it leaves. -/
theorem Issues.executes_of_waits (h : Issues R s) {t : ℕ} (hw : EXU.Waits (arrival h) t)
    (hfire : EXU.inFire ((arrival h).state t) ((arrival h).input t) = true) :
    Executes R (IDU.outBits (issuing R s)) (s + 1) (s + 1 + t) :=
  CPUCore.executes_of_waits h.holds (fun k hk _ => hw k hk) fun _ => hfire

theorem Issues.presents (h : Issues R s) :
    EXU.Presents (arrival h) (IDU.outBits (issuing R s)) := by
  intro t hw
  have hholds : ∀ k ≤ t, Holds R (IDU.outBits (issuing R s)) (s + 1 + k) := by
    intro k
    induction k with
    | zero => exact fun _ => h.holds
    | succ k ih =>
      intro hk
      exact (ih (Nat.le_of_succ_le hk)).next (hw k hk)
  exact hholds t le_rfl

/-- A clipped sum that the core issues ends with the value of the reference, on the
registers that were current at issue. -/
theorem matrix_sum_executes (h : Issues R s) {pmem : Pmem}
    (hcode : IDU.inst (issuing R s) &&& 0xfe00707f#32 = 0x0400700b#32)
    (halign : (issueRegs R s (IDU.rs1 (IDU.inst (issuing R s)))).toNat % 4 = 0)
    (hmem : EXU.Serves (arrival h) pmem) (hfair : EXU.Fair (arrival h)) :
    ∃ t, Executes R (IDU.outBits (issuing R s)) (s + 1) (s + 1 + t) ∧
      EXU.requests (arrival h) (t + 1) =
        MatrixSum.wordReads (issueRegs R s (IDU.rs1 (IDU.inst (issuing R s))))
          (matrixClippedSum pmem (issueRegs R s (IDU.rs1 (IDU.inst (issuing R s))))
            (issueRegs R s (IDU.rs2 (IDU.inst (issuing R s))))).2 ∧
      resultAt R (s + 1 + t) =
        (matrixClippedSum pmem (issueRegs R s (IDU.rs1 (IDU.inst (issuing R s))))
          (issueRegs R s (IDU.rs2 (IDU.inst (issuing R s))))).1 := by
  have hd : Decoded (IDU.outBits (issuing R s)) := ⟨_, rfl⟩
  have hx : EXU.isXmsum (IDU.outBits (issuing R s)) = true := EXU.isXmsum_of_code hd hcode
  have hmeta : IDU.metaInfo (IDU.inst (issuing R s)) = ⟨.reg, .arithmetic⟩ :=
    IDU.metaInfo_custom0 _ (IDU.opcode_of_xmsum _ hx).1
  -- the payload carries the registers at issue
  have hregs : (IDU.outBits (issuing R s)).info.reg1 =
        issueRegs R s (IDU.rs1 (IDU.inst (issuing R s))) ∧
      (IDU.outBits (issuing R s)).info.reg2 =
        issueRegs R s (IDU.rs2 (IDU.inst (issuing R s))) := by
    have hslow : EXU.resultIsFast (IDU.outBits (issuing R s)) = false := by
      have hx' : IDU.isMatrixReduceCustom (IDU.inst (issuing R s)) = true := hx
      simp [EXU.resultIsFast, IDU.outBits, IDU.info, IDU.resultKind, IDU.isAccelerator, IDU.isTyp,
        hmeta, hx']
    have hloop : EXU.isListReverseLoop (IDU.outBits (issuing R s)) = false := by
      refine Bool.eq_false_iff.mpr fun hk => ?_
      have hlist := EXU.listReverse_of_loop hd hk
      exact Bool.false_ne_true ((EXU.not_xmsum_of_listReverse hd hlist).symm.trans hx)
    have himm : EXU.isFmtI (IDU.outBits (issuing R s)) = false := by
      simp [EXU.isFmtI, IDU.outBits, IDU.info, hmeta]
    have hheld := heldOperands h.issued
    rw [h.issued.bits] at hheld
    have hspecial := hheld.special (EXU.isTypArithmetic_of_xmsum hd hx) hslow hloop
    rw [himm, if_neg (by decide)] at hspecial
    exact hspecial
  rw [← hregs.1] at halign
  rcases EXU.completes hd hx h.presents hmem halign hfair with ⟨t, hw, hfire⟩
  rcases EXU.result_at hd hx h.presents hmem halign hw hfire with ⟨hreads, hresult⟩
  rw [hregs.1, hregs.2] at hreads hresult
  exact ⟨t, h.executes_of_waits hw hfire, hreads, hresult⟩

end CPUCore

end Core
end Jyd
