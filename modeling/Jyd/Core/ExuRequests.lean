import Jyd.Core.ExuOccupancy
import Jyd.Core.Exu.DfaExecution

/-!
# ExuRequests — who uses the data-memory port

Three controllers and the plain loads and stores share one port.  A controller
asks in one state and waits in another; whoever else might use the port is at rest
meanwhile.
-/

namespace Jyd
namespace Core

open Hdl

/-! ## The request and response states of the controllers -/

namespace ListReverse

variable {l : Regs} {j : In}

def asks (l : Regs) : Bool := l.listReverseState == .loadRequest || l.listReverseState == .storeRequest
def waits (l : Regs) : Bool := l.listReverseState == .loadResponse

theorem asks_of_idle (h : l.listReverseState = .idle) : asks l = false := by
  rw [asks, h]
  rfl

theorem next_state (l : Regs) (j : In) :
    (next l j).listReverseState = (control l j).listReverseState := rfl

theorem asks_next (h : asks (next l j) = true) : (asks l && j.memReqFire) = false := by
  refine Bool.eq_false_iff.mpr fun hb => ?_
  simp only [asks, Bool.and_eq_true, Bool.or_eq_true, beq_iff_eq] at hb
  rcases hb with ⟨hs | hs, hf⟩ <;> simp [asks, next_state, control, hs, hf] at h

theorem waits_next (h : waits (next l j) = true) :
    (asks l = true ∧ j.memReqFire = true) ∨ (waits l = true ∧ j.memResp.valid = false) := by
  have hstate : (control l j).listReverseState = .loadResponse := by
    simpa [waits, next_state] using h
  cases hs : l.listReverseState with
  | idle =>
    cases hv : (j.valid && j.isListReverse) with
    | false => simp [control, hs, hv] at hstate
    | true =>
      simp only [control, hs, beq_self_eq_true, Bool.true_and, hv, if_true, start] at hstate
      split at hstate
      · cases hstate
      · split at hstate
        · split at hstate <;> cases hstate
        · cases hstate
  | lookup => simp [control, hs] at hstate
  | lookupResolve =>
    simp [control, hs] at hstate
    split at hstate <;> cases hstate
  | loadRequest =>
    cases hf : j.memReqFire with
    | false => simp [control, hs, hf] at hstate
    | true => exact Or.inl ⟨by simp [asks, hs], rfl⟩
  | loadResponse =>
    cases hv : j.memResp.valid with
    | false => exact Or.inr ⟨by simp [waits, hs], rfl⟩
    | true => simp [control, hs, hv] at hstate
  | storeRequest => cases hf : j.memReqFire <;> simp [control, hs, hf] at hstate
  | done => cases hf : j.outFire <;> simp [control, hs, hf] at hstate

end ListReverse

namespace MatrixSum

variable {m : Regs} {j : In}

def asks (m : Regs) : Bool := m.xmsumState == .request
def waits (m : Regs) : Bool := m.xmsumState == .response

theorem asks_of_idle (h : m.xmsumState = .idle) : asks m = false := by
  rw [asks, h]
  rfl

theorem asks_next (h : asks (next m j) = true) : (asks m && j.memReqFire) = false := by
  refine Bool.eq_false_iff.mpr fun hb => ?_
  simp only [asks, Bool.and_eq_true, beq_iff_eq] at hb
  simp [asks, EXU.xmsum_next_state, control, hb.1, hb.2] at h

theorem waits_next (h : waits (next m j) = true) :
    (asks m = true ∧ j.memReqFire = true) ∨ (waits m = true ∧ j.memResp.valid = false) := by
  have hstate : (control m j).xmsumState = .response := by
    simpa [waits, EXU.xmsum_next_state] using h
  cases hs : m.xmsumState with
  | idle =>
    cases hv : (j.valid && j.isXmsum) with
    | false => simp [control, hs, hv] at hstate
    | true =>
      simp only [control, hs, beq_self_eq_true, Bool.true_and, hv, if_true] at hstate
      split at hstate <;> cases hstate
  | request =>
    cases hf : j.memReqFire with
    | false => simp [control, hs, hf] at hstate
    | true => exact Or.inl ⟨by simp [asks, hs], rfl⟩
  | response =>
    cases hv : j.memResp.valid with
    | false => exact Or.inr ⟨by simp [waits, hs], rfl⟩
    | true =>
      simp [control, hs, hv] at hstate
      split at hstate <;> cases hstate
  | finalizeResult => simp [control, hs] at hstate
  | done => cases hf : j.outFire <;> simp [control, hs, hf] at hstate

end MatrixSum

namespace NumericDfa

variable {n : Regs} {j : In}

def asks (n : Regs) : Bool := n.xdfaWordState == .request
def waits (n : Regs) : Bool := n.xdfaWordState == .response

theorem asks_of_idle (h : n.xdfaWordState = .idle) : asks n = false := by
  rw [asks, h]
  rfl

theorem asks_next (h : asks (next n j) = true) : (asks n && j.memReqFire) = false := by
  refine Bool.eq_false_iff.mpr fun hb => ?_
  simp only [asks, Bool.and_eq_true, beq_iff_eq] at hb
  simp [asks, EXU.numericDfa_next_state, control, hb.1, hb.2] at h

theorem waits_next (h : waits (next n j) = true) :
    (asks n = true ∧ j.memReqFire = true) ∨ (waits n = true ∧ j.memResp.valid = false) := by
  have hstate : (control n j).xdfaWordState = .response := by
    simpa [waits, EXU.numericDfa_next_state] using h
  cases hs : n.xdfaWordState with
  | idle =>
    cases hv : (j.valid && isNumericDfaStep j) <;> simp [control, hs, hv] at hstate
  | request =>
    cases hf : j.memReqFire with
    | false => simp [control, hs, hf] at hstate
    | true => exact Or.inl ⟨by simp [asks, hs], rfl⟩
  | response =>
    cases hv : j.memResp.valid with
    | false => exact Or.inr ⟨by simp [waits, hs], rfl⟩
    | true => simp [control, hs, hv] at hstate
  | processLow => simp [control, hs] at hstate
  | processHigh =>
    simp [control, hs] at hstate
    split at hstate
    · split at hstate <;> cases hstate
    · cases hstate
  | commit => simp [control, hs] at hstate
  | done => cases hf : j.outFire <;> simp [control, hs, hf] at hstate

end NumericDfa

/-! ## The port as a whole -/

namespace EXU

variable {r : Regs} {i : In}

def asks (r : Regs) : Bool :=
  ListReverse.asks r.listReverse || MatrixSum.asks r.xmsum || NumericDfa.asks r.numericDfa

def waits (r : Regs) : Bool :=
  ListReverse.waits r.listReverse || MatrixSum.waits r.xmsum || NumericDfa.waits r.numericDfa

/-- One of the three controllers has left its idle state. -/
def busy (r : Regs) : Bool :=
  r.listReverse.listReverseState != .idle || r.xmsum.xmsumState != .idle ||
    r.numericDfa.xdfaWordState != .idle

theorem memReqValid_eq :
    memReqValid r i = (asks r || (needMemReq i.dinst && i.valid && i.outReady)) := by
  simp only [memReqValid, asks, ListReverse.asks, MatrixSum.asks, NumericDfa.asks, xdfaWordRequest,
    listReverseLoadRequest, listReverseStoreRequest, xmsumRequest]
  cases r.listReverse.listReverseState == .loadRequest <;>
    cases r.listReverse.listReverseState == .storeRequest <;>
    cases r.xmsum.xmsumState == .request <;> cases r.numericDfa.xdfaWordState == .request <;> rfl

theorem not_needMemReq_of_arithmetic {d : DecodedInst} (h : isTypArithmetic d = true) :
    needMemReq d = false := by
  have htyp : d.info.typ = .arithmetic := by simpa [isTypArithmetic] using h
  rw [needMemReq, isTypLoad, isTypStore, htyp]
  rfl

theorem busy_of_asks (h : asks r = true) : busy r = true := by
  simp only [asks, ListReverse.asks, MatrixSum.asks, NumericDfa.asks, Bool.or_eq_true,
    beq_iff_eq] at h
  rcases h with ((h | h) | h) | h <;> simp [busy, h]

theorem busy_of_waits (h : waits r = true) : busy r = true := by
  simp only [waits, ListReverse.waits, MatrixSum.waits, NumericDfa.waits, Bool.or_eq_true,
    beq_iff_eq] at h
  rcases h with (h | h) | h <;> simp [busy, h]

theorem Vacant.not_busy (h : Vacant r) : busy r = false := by
  simp [busy, h.listReverse, h.xmsum, h.numericDfa]

namespace Occupied

/-- A busy controller works for the valid instruction, which is no load or store. -/
theorem of_busy {valid : Bool} {d : DecodedInst} (h : Occupied r valid d)
    (hd : valid = true → Decoded d)
    (hb : busy r = true) : valid = true ∧ needMemReq d = false := by
  have hkind : valid = true ∧
      (isListReverse d = true ∨ isXmsum d = true ∨ isNumericDfa d = true) := by
    simp only [busy, Bool.or_eq_true, bne_iff_ne, ne_eq] at hb
    rcases hb with (hb | hb) | hb
    · exact ⟨(h.listReverse hb).1, Or.inl (h.listReverse hb).2⟩
    · exact ⟨(h.xmsum hb).1, Or.inr (Or.inl (h.xmsum hb).2)⟩
    · have hstep := (h.numericDfa hb).2
      simp only [isNumericDfaStep, Bool.and_eq_true] at hstep
      exact ⟨(h.numericDfa hb).1, Or.inr (Or.inr hstep.1)⟩
  have harith : isTypArithmetic d = true := by
    rcases hkind.2 with hk | hk | hk
    · exact isTypArithmetic_of_listReverse (hd hkind.1) hk
    · exact isTypArithmetic_of_xmsum (hd hkind.1) hk
    · exact isTypArithmetic_of_numericDfa (hd hkind.1) hk
  exact ⟨hkind.1, not_needMemReq_of_arithmetic harith⟩

theorem memReqValid_of_listReverse (h : Occupied r i.valid i.dinst) (hd : Decoded i.dinst)
    (hk : isListReverse i.dinst = true) : memReqValid r i = ListReverse.asks r.listReverse := by
  have hx := h.xmsum_idle (not_xmsum_of_listReverse hd hk)
  have hn := h.numericDfa_idle (by simp [isNumericDfaStep, not_numericDfa_of_listReverse hd hk])
  have hm := not_needMemReq_of_arithmetic (isTypArithmetic_of_listReverse hd hk)
  simp [memReqValid_eq, asks, MatrixSum.asks_of_idle hx, NumericDfa.asks_of_idle hn, hm]

theorem memReqValid_of_xmsum (h : Occupied r i.valid i.dinst) (hd : Decoded i.dinst)
    (hk : isXmsum i.dinst = true) : memReqValid r i = MatrixSum.asks r.xmsum := by
  have hl := h.listReverse_idle (Bool.eq_false_iff.mpr fun hl =>
    Bool.false_ne_true ((not_xmsum_of_listReverse hd hl).symm.trans hk))
  have hn := h.numericDfa_idle (by simp [isNumericDfaStep, not_numericDfa_of_xmsum hd hk])
  have hm := not_needMemReq_of_arithmetic (isTypArithmetic_of_xmsum hd hk)
  simp [memReqValid_eq, asks, ListReverse.asks_of_idle hl, NumericDfa.asks_of_idle hn, hm]

theorem memReqValid_of_numericDfaStep (h : Occupied r i.valid i.dinst) (hd : Decoded i.dinst)
    (hk : isNumericDfaStep i.dinst = true) : memReqValid r i = NumericDfa.asks r.numericDfa := by
  have hdfa : isNumericDfa i.dinst = true := by
    simp only [isNumericDfaStep, Bool.and_eq_true] at hk
    exact hk.1
  have hl := h.listReverse_idle (Bool.eq_false_iff.mpr fun hl =>
    Bool.false_ne_true ((not_numericDfa_of_listReverse hd hl).symm.trans hdfa))
  have hx := h.xmsum_idle (Bool.eq_false_iff.mpr fun hl =>
    Bool.false_ne_true ((not_numericDfa_of_xmsum hd hl).symm.trans hdfa))
  have hm := not_needMemReq_of_arithmetic (isTypArithmetic_of_numericDfa hd hdfa)
  simp [memReqValid_eq, asks, ListReverse.asks_of_idle hl, MatrixSum.asks_of_idle hx, hm]

/-- While a controller waits, the port is silent. -/
theorem memReqValid_of_waits (h : Occupied r i.valid i.dinst)
    (hd : i.valid = true → Decoded i.dinst) (hw : waits r = true) : memReqValid r i = false := by
  have hdec := hd (h.of_busy hd (busy_of_waits hw)).1
  simp only [waits, ListReverse.waits, MatrixSum.waits, NumericDfa.waits, Bool.or_eq_true,
    beq_iff_eq] at hw
  rcases hw with (hs | hs) | hs
  · rw [h.memReqValid_of_listReverse hdec (h.listReverse (by simp [hs])).2]
    simp [ListReverse.asks, hs]
  · rw [h.memReqValid_of_xmsum hdec (h.xmsum (by simp [hs])).2]
    simp [MatrixSum.asks, hs]
  · rw [h.memReqValid_of_numericDfaStep hdec (h.numericDfa (by simp [hs])).2]
    simp [NumericDfa.asks, hs]

/-- A controller in the middle of a memory access keeps its instruction. -/
theorem not_inFire_of_access (h : Occupied r i.valid i.dinst)
    (hd : i.valid = true → Decoded i.dinst) (ha : asks r = true ∨ waits r = true) :
    inFire r i = false := by
  have hbusy : busy r = true := ha.elim busy_of_asks busy_of_waits
  have hdec := hd (h.of_busy hd hbusy).1
  have hstate : (r.listReverse.listReverseState ≠ .idle ∧ r.listReverse.listReverseState ≠ .done) ∨
      (r.xmsum.xmsumState ≠ .idle ∧ r.xmsum.xmsumState ≠ .done) ∨
      (r.numericDfa.xdfaWordState ≠ .idle ∧ r.numericDfa.xdfaWordState ≠ .done) := by
    simp only [asks, waits, ListReverse.asks, ListReverse.waits, MatrixSum.asks, MatrixSum.waits,
      NumericDfa.asks, NumericDfa.waits, Bool.or_eq_true, beq_iff_eq] at ha
    rcases ha with (((hs | hs) | hs) | hs) | ((hs | hs) | hs) <;> simp [hs]
  rcases hstate with ⟨hs, hnd⟩ | ⟨hs, hnd⟩ | ⟨hs, hnd⟩
  · have hk := (h.listReverse hs).2
    have hstep : isNumericDfaStep i.dinst = false := by
      simp [isNumericDfaStep, not_numericDfa_of_listReverse hdec hk]
    simp [inFire, inReady, hstep, hk, listReverseDone, hnd]
  · have hk := (h.xmsum hs).2
    have hstep : isNumericDfaStep i.dinst = false := by
      simp [isNumericDfaStep, not_numericDfa_of_xmsum hdec hk]
    have hl : isListReverse i.dinst = false := Bool.eq_false_iff.mpr fun hl =>
      Bool.false_ne_true ((not_xmsum_of_listReverse hdec hl).symm.trans hk)
    simp [inFire, inReady, hstep, hl, hk, xmsumDone, hnd]
  · have hk := (h.numericDfa hs).2
    simp [inFire, inReady, hk, xdfaWordDone, hnd]

/-- A controller that is about to ask was not answered a request in this cycle. -/
theorem no_fire_of_asks_next (h : Occupied r i.valid i.dinst)
    (hd : i.valid = true → Decoded i.dinst) (hv : i.valid = true) (ha : asks (next r i) = true) :
    memReqFire r i = false := by
  have hdec := hd hv
  simp only [asks, Bool.or_eq_true] at ha
  rcases ha with (ha | ha) | ha
  · have hk : isListReverse i.dinst = true := Bool.eq_true_of_not_eq_false fun hk => by
      have hidle : (next r i).listReverse.listReverseState = .idle :=
        listReverse_next_idle (h.listReverse_idle hk) (by simp [listReverseIn, hk])
      simp [ListReverse.asks, hidle] at ha
    have hno : (ListReverse.asks r.listReverse && memReqFire r i) = false :=
      ListReverse.asks_next ha
    simpa [memReqFire, h.memReqValid_of_listReverse hdec hk] using hno
  · have hk : isXmsum i.dinst = true := Bool.eq_true_of_not_eq_false fun hk => by
      have hidle : (next r i).xmsum.xmsumState = .idle :=
        xmsum_next_idle (h.xmsum_idle hk) (by simp [xmsumIn, hk])
      simp [MatrixSum.asks, hidle] at ha
    have hno : (MatrixSum.asks r.xmsum && memReqFire r i) = false := MatrixSum.asks_next ha
    simpa [memReqFire, h.memReqValid_of_xmsum hdec hk] using hno
  · have hk : isNumericDfaStep i.dinst = true := Bool.eq_true_of_not_eq_false fun hk => by
      have hidle : (next r i).numericDfa.xdfaWordState = .idle :=
        numericDfa_next_idle (h.numericDfa_idle hk) (by
          rw [show NumericDfa.isNumericDfaStep (numericDfaIn r i) = isNumericDfaStep i.dinst from rfl,
            hk, Bool.and_false])
      simp [NumericDfa.asks, hidle] at ha
    have hno : (NumericDfa.asks r.numericDfa && memReqFire r i) = false := NumericDfa.asks_next ha
    simpa [memReqFire, h.memReqValid_of_numericDfaStep hdec hk] using hno

end Occupied

/-- A controller waits because it has just asked, or because no response came. -/
theorem waits_next (h : waits (next r i) = true) :
    (asks r = true ∧ memReqFire r i = true) ∨ (waits r = true ∧ i.memResp.valid = false) := by
  simp only [waits, Bool.or_eq_true] at h
  simp only [asks, waits, Bool.or_eq_true]
  rcases h with (h | h) | h
  · rcases ListReverse.waits_next h with h | h
    · exact Or.inl ⟨Or.inl (Or.inl h.1), h.2⟩
    · exact Or.inr ⟨Or.inl (Or.inl h.1), h.2⟩
  · rcases MatrixSum.waits_next h with h | h
    · exact Or.inl ⟨Or.inl (Or.inr h.1), h.2⟩
    · exact Or.inr ⟨Or.inl (Or.inr h.1), h.2⟩
  · rcases NumericDfa.waits_next h with h | h
    · exact Or.inl ⟨Or.inr h.1, h.2⟩
    · exact Or.inr ⟨Or.inr h.1, h.2⟩

/-! ## A numeric-DFA instruction on its controller -/

/-- The numeric-DFA instructions wait for no late load. -/
theorem not_hasLate_of_numericDfa {d : DecodedInst} (hd : Decoded d) (hk : isNumericDfa d = true) :
    hasLateLoadOperand d = false := by
  rcases hd with ⟨j, rfl⟩
  have hmeta := IDU.metaInfo_custom2 _ (IDU.opcode_of_numericDfa _ hk)
  simp [hasLateLoadOperand, IDU.outBits, IDU.info, IDU.byPass1, IDU.byPass2,
    IDU.CacheAwareByPassMux, IDU.allowLateLoadRs1, IDU.isLateLoadAndi1, IDU.isLateLoadSrli1,
    IDU.isEqualityBranch, IDU.isTyp, IDU.isFmtI, IDU.isFmt, hmeta]

def dfaOp (d : DecodedInst) : NumericDfa.Op :=
  ⟨func3t d, func7t d, d.info.reg1, d.info.reg2⟩

/-- EXU presents the instruction it holds to the controller, as `NumericDfa.Executes` asks. -/
theorem presents_numericDfa {mem : NumericDfa.Mem} (hd : Decoded i.dinst)
    (hv : i.valid = true) (hk : isNumericDfa i.dinst = true)
    (hresp : r.numericDfa.xdfaWordState = .response → i.memResp.valid = true →
      i.memResp.bits = mem.wordAt r.numericDfa.xdfaWordAddress) :
    NumericDfa.Presents mem (dfaOp i.dinst) r.numericDfa (numericDfaIn r i) := by
  refine ⟨hv, hk, rfl, rfl, rfl, rfl, hresp, ?_⟩
  have hsame : NumericDfa.isNumericDfaStep (numericDfaIn r i) = isNumericDfaStep i.dinst := rfl
  show outFire r i = (i.outReady && _)
  rw [hsame, outFire, Bool.and_comm]
  cases hstep : isNumericDfaStep i.dinst with
  | true => simp [outValid, hstep, xdfaWordDone]
  | false =>
    -- a single-cycle instruction has its result at once
    have hl : isListReverse i.dinst = false := Bool.eq_false_iff.mpr fun hl =>
      Bool.false_ne_true ((not_numericDfa_of_listReverse hd hl).symm.trans hk)
    have hx : isXmsum i.dinst = false := Bool.eq_false_iff.mpr fun hl =>
      Bool.false_ne_true ((not_numericDfa_of_xmsum hd hl).symm.trans hk)
    have harith := isTypArithmetic_of_numericDfa hd hk
    have hsys : isTypSys i.dinst = false := by
      simp only [isTypArithmetic, beq_iff_eq] at harith
      simp [isTypSys, harith]
    simp [outValid, hstep, hl, hx, hv, not_needMemReq_of_arithmetic harith, exuResultValid, hk,
      hsys, not_hasLate_of_numericDfa hd hk]

end EXU

end Core
end Jyd
