import Jyd.Core.Decoded

/-!
# ExuOccupancy — one instruction owns the execute stage

The controllers inside EXU hold state over several cycles.  `Occupied` ties every
such state to the instruction that EXU currently holds; it survives a cycle in
which that instruction stays and is empty again once the instruction has left.
-/

namespace Jyd
namespace Core
namespace EXU

open Hdl

/-- All multi-cycle state is at rest. -/
structure Vacant (r : Regs) : Prop where
  listReverse : r.listReverse.listReverseState = .idle
  xmsum : r.xmsum.xmsumState = .idle
  numericDfa : r.numericDfa.xdfaWordState = .idle
  csr : r.csr.csrPrepared = false
  captured : r.capturedLateLoadValid = false
  other : r.lateOtherOperandCaptured = false

/-- Where a system instruction continues. -/
def csrNextPC (r : Regs) (d : DecodedInst) : Word :=
  if d.info.isECall then ControlStatusRegisterFile.mtvec r.csr.csrs
  else if d.info.isMRet then ControlStatusRegisterFile.mepc r.csr.csrs
  else d.info.staticNextPCOrCSRTarget

/-- The prepared half of a CSR transaction agrees with its instruction. -/
def CsrPrepared (r : Regs) (d : DecodedInst) : Prop :=
  isTypSys d = true ∧ r.csr.csrNextPCReg = csrNextPC r d

/-- Multi-cycle state belongs to the instruction `d`, which is in EXU when `valid`. -/
structure Occupied (r : Regs) (valid : Bool) (d : DecodedInst) : Prop where
  listReverse : r.listReverse.listReverseState ≠ .idle → valid = true ∧ isListReverse d = true
  xmsum : r.xmsum.xmsumState ≠ .idle → valid = true ∧ isXmsum d = true
  numericDfa : r.numericDfa.xdfaWordState ≠ .idle → valid = true ∧ isNumericDfaStep d = true
  csr : r.csr.csrPrepared = true → valid = true ∧ CsrPrepared r d
  captured : r.capturedLateLoadValid = true → valid = true ∧ hasLateLoadOperand d = true
  other : r.lateOtherOperandCaptured = true → valid = true ∧ hasLateLoadOperand d = true

variable {r : Regs} {i : In} {valid : Bool} {d : DecodedInst}

theorem Vacant.occupied (h : Vacant r) : Occupied r valid d where
  listReverse := fun hb => absurd h.listReverse hb
  xmsum := fun hb => absurd h.xmsum hb
  numericDfa := fun hb => absurd h.numericDfa hb
  csr := fun hb => by simp [h.csr] at hb
  captured := fun hb => by simp [h.captured] at hb
  other := fun hb => by simp [h.other] at hb

/-- Without an instruction EXU is at rest. -/
theorem Occupied.vacant (h : Occupied r false d) : Vacant r where
  listReverse := by_contra fun hb => Bool.false_ne_true (h.listReverse hb).1
  xmsum := by_contra fun hb => Bool.false_ne_true (h.xmsum hb).1
  numericDfa := by_contra fun hb => Bool.false_ne_true (h.numericDfa hb).1
  csr := Bool.eq_false_iff.mpr fun hb => Bool.false_ne_true (h.csr hb).1
  captured := Bool.eq_false_iff.mpr fun hb => Bool.false_ne_true (h.captured hb).1
  other := Bool.eq_false_iff.mpr fun hb => Bool.false_ne_true (h.other hb).1

/-! ## The controllers start and finish with their instruction -/

theorem listReverse_next_idle {l : ListReverse.Regs} {j : ListReverse.In}
    (hidle : l.listReverseState = .idle) (hstart : (j.valid && j.isListReverse) = false) :
    (ListReverse.next l j).listReverseState = .idle := by
  simp [ListReverse.next, ListReverse.control, hidle, hstart]

theorem listReverse_next_done {l : ListReverse.Regs} {j : ListReverse.In}
    (hdone : l.listReverseState = .done) (hfire : j.outFire = true) :
    (ListReverse.next l j).listReverseState = .idle := by
  simp [ListReverse.next, ListReverse.control, hdone, hfire]

theorem xmsum_next_state (m : MatrixSum.Regs) (j : MatrixSum.In) :
    (MatrixSum.next m j).xmsumState = (MatrixSum.control m j).xmsumState := by
  unfold MatrixSum.next
  dsimp only
  split <;> rfl

theorem xmsum_next_idle {m : MatrixSum.Regs} {j : MatrixSum.In}
    (hidle : m.xmsumState = .idle) (hstart : (j.valid && j.isXmsum) = false) :
    (MatrixSum.next m j).xmsumState = .idle := by
  rw [xmsum_next_state]
  simp [MatrixSum.control, hidle, hstart]

theorem xmsum_next_done {m : MatrixSum.Regs} {j : MatrixSum.In}
    (hdone : m.xmsumState = .done) (hfire : j.outFire = true) :
    (MatrixSum.next m j).xmsumState = .idle := by
  rw [xmsum_next_state]
  simp [MatrixSum.control, hdone, hfire]

theorem numericDfa_next_state (n : NumericDfa.Regs) (j : NumericDfa.In) :
    (NumericDfa.next n j).xdfaWordState = (NumericDfa.control n j).xdfaWordState := by
  unfold NumericDfa.next
  dsimp only
  split
  · rfl
  · split <;> rfl

theorem numericDfa_next_idle {n : NumericDfa.Regs} {j : NumericDfa.In}
    (hidle : n.xdfaWordState = .idle)
    (hstart : (j.valid && NumericDfa.isNumericDfaStep j) = false) :
    (NumericDfa.next n j).xdfaWordState = .idle := by
  rw [numericDfa_next_state]
  simp [NumericDfa.control, hidle, hstart]

theorem numericDfa_next_done {n : NumericDfa.Regs} {j : NumericDfa.In}
    (hdone : n.xdfaWordState = .done) (hfire : j.outFire = true) :
    (NumericDfa.next n j).xdfaWordState = .idle := by
  rw [numericDfa_next_state]
  simp [NumericDfa.control, hdone, hfire]

/-- Only a committing instruction changes a writable CSR. -/
theorem waregs_kept {q : CsrTransaction.Regs} {j : CsrTransaction.In}
    (h : CsrTransaction.commits q j = false) :
    (CsrTransaction.next q j).csrs.waregs = q.csrs.waregs := by
  have hwrite : (ControlStatusRegisterFile.next q.csrs (CsrTransaction.write q j)).waregs =
      q.csrs.waregs := by
    simp [ControlStatusRegisterFile.next, ControlStatusRegisterFile.isTrap, CsrTransaction.write, h]
  rw [← hwrite]
  unfold CsrTransaction.next
  dsimp only
  split
  · rfl
  · split
    · rfl
    · split <;> rfl

/-- A prepared transaction keeps what it captured. -/
theorem csrNextPCReg_kept {q : CsrTransaction.Regs} (j : CsrTransaction.In)
    (hprep : q.csrPrepared = true) : (CsrTransaction.next q j).csrNextPCReg = q.csrNextPCReg := by
  simp only [CsrTransaction.next, hprep, Bool.not_true, Bool.and_false, Bool.false_eq_true, if_false]
  split
  · rfl
  · split <;> rfl

/-! ## Handshakes -/

/-- The port carries the request of a load or store unless a controller drives it. -/
theorem memReqValid_of_idle (hl : r.listReverse.listReverseState = .idle)
    (hx : r.xmsum.xmsumState = .idle) (hn : r.numericDfa.xdfaWordState = .idle) :
    memReqValid r i = (needMemReq i.dinst && i.valid && i.outReady) := by
  simp [memReqValid, xdfaWordRequest, listReverseLoadRequest, listReverseStoreRequest,
    xmsumRequest, hl, hx, hn]

theorem exuResultValid_of_needMemReq (hd : Decoded i.dinst) (hmem : needMemReq i.dinst = true)
    (hstep : isNumericDfaStep i.dinst = false) (hlist : isListReverse i.dinst = false)
    (hxm : isXmsum i.dinst = false) : exuResultValid r i = true := by
  have htyp : i.dinst.info.typ = .load ∨ i.dinst.info.typ = .store := by
    simpa [needMemReq, isTypLoad, isTypStore] using hmem
  have hsys : isTypSys i.dinst = false := by
    rcases htyp with ht | ht <;> simp [isTypSys, ht]
  have harith : isTypArithmetic i.dinst = false := by
    rcases htyp with ht | ht <;> simp [isTypArithmetic, ht]
  have hbranch : isTypBranch i.dinst = false := by
    rcases htyp with ht | ht <;> simp [isTypBranch, ht]
  simp [exuResultValid, hstep, hlist, hxm, hsys, harith, not_hasLate hd harith hbranch]

/-- A system instruction is ready once its transaction is prepared. -/
theorem exuResultValid_of_sys (hd : Decoded i.dinst) (hsys : isTypSys i.dinst = true) :
    exuResultValid r i = r.csr.csrPrepared := by
  have htyp : i.dinst.info.typ = .system := by
    simpa [isTypSys] using hsys
  have harith : isTypArithmetic i.dinst = false := by
    simp [isTypArithmetic, htyp]
  have hbranch : isTypBranch i.dinst = false := by
    simp [isTypBranch, htyp]
  rcases not_accelerator hd harith with ⟨hnum, hlist, hxm⟩
  simp [exuResultValid, isNumericDfaStep, hnum, hlist, hxm, hsys, harith,
    not_hasLate hd harith hbranch]

namespace Occupied

theorem listReverse_idle (h : Occupied r valid d) (hk : isListReverse d = false) :
    r.listReverse.listReverseState = .idle := by
  by_contra hb
  exact Bool.false_ne_true (hk ▸ (h.listReverse hb).2)

theorem xmsum_idle (h : Occupied r valid d) (hk : isXmsum d = false) :
    r.xmsum.xmsumState = .idle := by
  by_contra hb
  exact Bool.false_ne_true (hk ▸ (h.xmsum hb).2)

theorem numericDfa_idle (h : Occupied r valid d) (hk : isNumericDfaStep d = false) :
    r.numericDfa.xdfaWordState = .idle := by
  by_contra hb
  exact Bool.false_ne_true (hk ▸ (h.numericDfa hb).2)

/-- What leaves towards LSU is exactly what is taken from IDU. -/
theorem outValid_eq_inFire (h : Occupied r i.valid i.dinst) (hout : i.outReady = true) :
    outValid r i = inFire r i := by
  -- in the order of the priority chain of `inReady` and `outValid`
  cases hstep : isNumericDfaStep i.dinst with
  | true =>
    cases hdone : xdfaWordDone r i with
    | false => simp [outValid, inFire, inReady, hstep, hdone]
    | true =>
      have hstate : r.numericDfa.xdfaWordState = .done := by
        simpa [xdfaWordDone, hstep] using hdone
      have hv := (h.numericDfa (by simp [hstate])).1
      simp [outValid, inFire, inReady, hstep, hdone, hv, hout]
  | false =>
    cases hlist : isListReverse i.dinst with
    | true =>
      cases hdone : listReverseDone r i with
      | false => simp [outValid, inFire, inReady, hstep, hlist, hdone]
      | true =>
        have hstate : r.listReverse.listReverseState = .done := by
          simpa [listReverseDone, hlist] using hdone
        have hv := (h.listReverse (by simp [hstate])).1
        simp [outValid, inFire, inReady, hstep, hlist, hdone, hv, hout]
    | false =>
      cases hxm : isXmsum i.dinst with
      | true =>
        cases hdone : xmsumDone r i with
        | false => simp [outValid, inFire, inReady, hstep, hlist, hxm, hdone]
        | true =>
          have hstate : r.xmsum.xmsumState = .done := by
            simpa [xmsumDone, hxm] using hdone
          have hv := (h.xmsum (by simp [hstate])).1
          simp [outValid, inFire, inReady, hstep, hlist, hxm, hdone, hv, hout]
      | false =>
        -- without an accelerator the only request is the instruction's own
        have hreq := memReqValid_of_idle (i := i) (h.listReverse_idle hlist) (h.xmsum_idle hxm)
          (h.numericDfa_idle hstep)
        cases hv : i.valid <;>
          simp [outValid, inFire, inReady, hstep, hlist, hxm, memReqFire, hreq, hv, hout]

theorem outFire_eq_inFire (h : Occupied r i.valid i.dinst) (hout : i.outReady = true) :
    outFire r i = inFire r i := by
  rw [outFire, hout, Bool.and_true, h.outValid_eq_inFire hout]

/-- An instruction leaves only with its result. -/
theorem exuResultValid_of_inFire (h : Occupied r i.valid i.dinst) (hd : Decoded i.dinst)
    (hfire : inFire r i = true) : exuResultValid r i = true := by
  have hready : inReady r i = true := by
    simp only [inFire, Bool.and_eq_true] at hfire
    exact hfire.2
  cases hstep : isNumericDfaStep i.dinst with
  | true =>
    simp only [inReady, hstep, if_true, Bool.and_eq_true] at hready
    simpa [exuResultValid, hstep] using hready.1
  | false =>
    cases hlist : isListReverse i.dinst with
    | true =>
      simp only [inReady, hstep, hlist, if_true, Bool.false_eq_true, if_false,
        Bool.and_eq_true] at hready
      simpa [exuResultValid, hstep, hlist] using hready.1
    | false =>
      cases hxm : isXmsum i.dinst with
      | true =>
        simp only [inReady, hstep, hlist, hxm, if_true, Bool.false_eq_true, if_false,
          Bool.and_eq_true] at hready
        simpa [exuResultValid, hstep, hlist, hxm] using hready.1
      | false =>
        have hreq := memReqValid_of_idle (i := i) (h.listReverse_idle hlist) (h.xmsum_idle hxm)
          (h.numericDfa_idle hstep)
        cases hmem : needMemReq i.dinst with
        | true => exact exuResultValid_of_needMemReq hd hmem hstep hlist hxm
        | false =>
          simp only [inReady, hstep, hlist, hxm, memReqFire, hreq, hmem, Bool.false_and,
            Bool.false_or, Bool.false_eq_true, if_false, Bool.and_eq_true] at hready
          exact hready.2

/-! ## One clock edge -/

theorem vacant_next_of_invalid (h : Occupied r i.valid i.dinst) (hv : i.valid = false) :
    Vacant (next r i) := by
  have hvac : Vacant r := Occupied.vacant (hv ▸ h)
  refine ⟨?_, ?_, ?_, ?_, ?_, ?_⟩
  · exact listReverse_next_idle hvac.listReverse (by simp [listReverseIn, hv])
  · exact xmsum_next_idle hvac.xmsum (by simp [xmsumIn, hv])
  · exact numericDfa_next_idle hvac.numericDfa (by simp [numericDfaIn, hv])
  · simp [next, CsrTransaction.next, csrIn, hv]
  · simp [next, hv]
  · simp [next, hv]

theorem vacant_next_of_inFire (h : Occupied r i.valid i.dinst) (hd : Decoded i.dinst)
    (hout : i.outReady = true) (hfire : inFire r i = true) : Vacant (next r i) := by
  have hofire : outFire r i = true := (h.outFire_eq_inFire hout).trans hfire
  have hready : i.valid = true ∧ inReady r i = true := by
    simpa [inFire] using hfire
  refine ⟨?_, ?_, ?_, ?_, ?_, ?_⟩
  · cases hk : isListReverse i.dinst with
    | false =>
      exact listReverse_next_idle (h.listReverse_idle hk) (by simp [listReverseIn, hk])
    | true =>
      have hstep : isNumericDfaStep i.dinst = false := by
        simp [isNumericDfaStep, not_numericDfa_of_listReverse hd hk]
      have hdone : r.listReverse.listReverseState = .done := by
        simpa [inReady, hstep, hk, listReverseDone, hout] using hready.2
      exact listReverse_next_done hdone hofire
  · cases hk : isXmsum i.dinst with
    | false => exact xmsum_next_idle (h.xmsum_idle hk) (by simp [xmsumIn, hk])
    | true =>
      have hstep : isNumericDfaStep i.dinst = false := by
        simp [isNumericDfaStep, not_numericDfa_of_xmsum hd hk]
      have hlist : isListReverse i.dinst = false := by
        refine Bool.eq_false_iff.mpr fun hl => ?_
        rw [not_xmsum_of_listReverse hd hl] at hk
        exact Bool.false_ne_true hk
      have hdone : r.xmsum.xmsumState = .done := by
        simpa [inReady, hstep, hlist, hk, xmsumDone, hout] using hready.2
      exact xmsum_next_done hdone hofire
  · cases hk : isNumericDfaStep i.dinst with
    | false =>
      refine numericDfa_next_idle (h.numericDfa_idle hk) ?_
      rw [show NumericDfa.isNumericDfaStep (numericDfaIn r i) = isNumericDfaStep i.dinst from rfl,
        hk, Bool.and_false]
    | true =>
      have hdone : r.numericDfa.xdfaWordState = .done := by
        simpa [inReady, hk, xdfaWordDone, hout] using hready.2
      exact numericDfa_next_done hdone hofire
  · cases hk : isTypSys i.dinst with
    | false =>
      have hprep : r.csr.csrPrepared = false :=
        Bool.eq_false_iff.mpr fun hb => Bool.false_ne_true (hk ▸ (h.csr hb).2.1)
      simp [next, CsrTransaction.next, csrIn, hk, hprep]
    | true =>
      -- a system instruction only completes in its second cycle
      cases hprep : r.csr.csrPrepared with
      | true => simp [next, CsrTransaction.next, csrIn, hready.1, hk, hprep, hofire]
      | false =>
        have hres := h.exuResultValid_of_inFire hd hfire
        rw [exuResultValid_of_sys hd hk, hprep] at hres
        exact absurd hres Bool.false_ne_true
  · simp [next, hfire]
  · simp [next, hfire]

theorem stay (h : Occupied r i.valid i.dinst) (hout : i.outReady = true) (hv : i.valid = true)
    (hstay : inFire r i = false) : Occupied (next r i) true i.dinst := by
  have hnofire : outFire r i = false := (h.outFire_eq_inFire hout).trans hstay
  refine ⟨?_, ?_, ?_, ?_, ?_, ?_⟩
  · intro hb
    refine ⟨rfl, Bool.eq_true_of_not_eq_false fun hk => hb ?_⟩
    exact listReverse_next_idle (h.listReverse_idle hk) (by simp [listReverseIn, hk])
  · intro hb
    refine ⟨rfl, Bool.eq_true_of_not_eq_false fun hk => hb ?_⟩
    exact xmsum_next_idle (h.xmsum_idle hk) (by simp [xmsumIn, hk])
  · intro hb
    refine ⟨rfl, Bool.eq_true_of_not_eq_false fun hk => hb ?_⟩
    refine numericDfa_next_idle (h.numericDfa_idle hk) ?_
    rw [show NumericDfa.isNumericDfaStep (numericDfaIn r i) = isNumericDfaStep i.dinst from rfl,
      hk, Bool.and_false]
  -- the CSR target stays valid because nothing commits while EXU waits
  · intro hb
    refine ⟨rfl, ?_⟩
    have hkept : (next r i).csr.csrs.waregs = r.csr.csrs.waregs :=
      waregs_kept (by simp [CsrTransaction.commits, csrIn, hnofire])
    have htarget : csrNextPC (next r i) i.dinst = csrNextPC r i.dinst := by
      simp only [csrNextPC, ControlStatusRegisterFile.mtvec, ControlStatusRegisterFile.mepc, hkept]
    cases hprep : r.csr.csrPrepared with
    | true =>
      rcases (h.csr hprep).2 with ⟨hsys, hpc⟩
      refine ⟨hsys, ?_⟩
      rw [show (next r i).csr.csrNextPCReg = r.csr.csrNextPCReg from csrNextPCReg_kept _ hprep,
        htarget]
      exact hpc
    | false =>
      have hsys : isTypSys i.dinst = true := by
        by_contra hk
        simp [next, CsrTransaction.next, csrIn, hv, hprep, hk] at hb
      refine ⟨hsys, ?_⟩
      rw [htarget]
      simp [next, CsrTransaction.next, csrIn, csrNextPC, hv, hsys, hprep]
  · intro hb
    refine ⟨rfl, ?_⟩
    cases hcap : r.capturedLateLoadValid with
    | true => exact (h.captured hcap).2
    | false =>
      have hwbu : captureLateLoadWBU r i = true := by
        simpa [next, hv, hstay, hcap] using hb
      simp only [captureLateLoadWBU, Bool.and_eq_true] at hwbu
      exact hwbu.1.1.1.1.2
  · intro hb
    refine ⟨rfl, ?_⟩
    cases hcap : r.lateOtherOperandCaptured with
    | true => exact (h.other hcap).2
    | false => simpa [next, hv, hstay, hcap] using hb

end Occupied

end EXU
end Core
end Jyd
