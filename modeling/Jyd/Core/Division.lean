import Jyd.Core.Alu
import Jyd.Hdl.FunctionalUnit
import Jyd.Hdl.RestoringDivision
import Jyd.Isa.MExtension

/-!
# Division — the divider computes the RISC-V quotients and remainders

The busy rounds are the restoring division of the operands' magnitudes; the sign is put
back in one further cycle.  Neither the zero divisor nor the signed overflow has a path
of its own.
-/

namespace Jyd
namespace Core
namespace Divider

open Hdl Isa

/-- The wires that drive the divider in one cycle. -/
structure In where
  bits : DividerInput
  inValid : Bool
  outReady : Bool
  deriving DecidableEq, Repr

def machine : Machine In Regs where
  init := fun r => r.state = .idle
  next := fun i r => next r i.bits i.inValid i.outReady

def ports : UnitPorts In Regs DividerInput Word where
  inValid := In.inValid
  inBits := In.bits
  inReady := inReady
  outValid := outValid
  outBits := outBits
  outReady := In.outReady

/-- `w` is the result that RISC-V defines for the operation `q`. -/
def Answers (q : DividerInput) (w : Word) : Prop :=
  ∀ op : DivOp, q.func3t = op.func3t → w = op.result q.src1 q.src2

variable {r : Regs} {q : DividerInput} {i : In}

/-! ## One round of the loop -/

/-- The registers of the loop, as numbers. -/
def loop (r : Regs) : RestoringDivision.State := ⟨r.remainderReg.toNat, r.quotientReg.toNat⟩

theorem toNat_shiftedRemainder (h : r.remainderReg.toNat < 2 ^ 32) :
    (shiftedRemainder r).toNat = RestoringDivision.shifted 31 (loop r) := by
  have hquotient : r.quotientReg.toNat < 2 ^ 32 := r.quotientReg.isLt
  have htop : (r.quotientReg.extractLsb' 31 1).toNat < 2 ^ 1 := BitVec.isLt _
  rw [shiftedRemainder, BitVec.toNat_append, ← Nat.shiftLeft_add_eq_or_of_lt htop]
  simp only [BitVec.extractLsb'_toNat, Nat.shiftRight_eq_div_pow, Nat.shiftLeft_eq,
    RestoringDivision.shifted, loop]
  omega

theorem toNat_subtractResult :
    (subtractResult r).toNat =
      (2 ^ 33 - r.divisorReg.toNat + (shiftedRemainder r).toNat) % 2 ^ 33 := by
  have hdivisor : (0#1 ++ r.divisorReg).toNat = r.divisorReg.toNat := by
    rw [BitVec.toNat_append]
    simp
  rw [subtractResult, BitVec.toNat_sub, hdivisor]

/-- Bit 32 of the difference is the borrow of the trial subtraction. -/
theorem canSubtract_eq (h : (shiftedRemainder r).toNat < r.divisorReg.toNat + 2 ^ 32) :
    canSubtract r = decide (r.divisorReg.toNat ≤ (shiftedRemainder r).toNat) := by
  have hdivisor : r.divisorReg.toNat < 2 ^ 32 := r.divisorReg.isLt
  have hbit : (subtractResult r).getLsbD 32 =
      decide ((subtractResult r).toNat / 2 ^ 32 % 2 = 1) := by
    rw [BitVec.getLsbD, Nat.testBit_eq_decide_div_mod_eq]
  rw [canSubtract, hbit, ← decide_not, decide_eq_decide, toNat_subtractResult]
  omega

section Round

variable {dividend k j : ℕ} (hdividend : dividend < 2 ^ 32)
  (h : RestoringDivision.Holds 31 dividend r.divisorReg.toNat k (j + 1) (loop r))

include hdividend h

theorem shiftedRemainder_eq :
    (shiftedRemainder r).toNat = RestoringDivision.shifted 31 (loop r) :=
  toNat_shiftedRemainder (h.remainder_lt hdividend)

theorem toNat_canSubtract :
    (canSubtract r).toNat = RestoringDivision.bit 31 r.divisorReg.toNat (loop r) := by
  have hlt := h.shifted_lt hdividend r.divisorReg.isLt
  rw [canSubtract_eq (by rwa [shiftedRemainder_eq hdividend h]),
    shiftedRemainder_eq hdividend h, RestoringDivision.bit]
  split <;> rename_i hle <;> simp [hle]

theorem toNat_nextQuotient :
    (nextQuotient r).toNat = (RestoringDivision.step 31 r.divisorReg.toNat (loop r)).quotient := by
  have hbit : (BitVec.ofBool (canSubtract r)).toNat < 2 ^ 1 := BitVec.isLt _
  rw [nextQuotient, BitVec.toNat_append, ← Nat.shiftLeft_add_eq_or_of_lt hbit,
    BitVec.toNat_ofBool, toNat_canSubtract hdividend h]
  simp only [BitVec.extractLsb'_toNat, Nat.shiftRight_zero, Nat.shiftLeft_eq,
    RestoringDivision.step, loop]
  omega

theorem toNat_nextRemainder :
    (nextRemainder r).toNat =
      (RestoringDivision.step 31 r.divisorReg.toNat (loop r)).remainder := by
  have hshifted := shiftedRemainder_eq hdividend h
  have hlt := h.shifted_lt hdividend r.divisorReg.isLt
  have hdivisor : r.divisorReg.toNat < 2 ^ 32 := r.divisorReg.isLt
  rw [nextRemainder, canSubtract_eq (by rwa [hshifted]), RestoringDivision.step,
    RestoringDivision.bit, ← hshifted]
  rw [← hshifted] at hlt
  -- the difference fits in 32 bits; without it the shifted remainder is kept
  by_cases hle : r.divisorReg.toNat ≤ (shiftedRemainder r).toNat
  · simp only [hle, decide_true, if_true, toNat_subtractResult]
    omega
  · simp [hle]

/-- The wires of a busy cycle are one round of restoring division. -/
theorem round :
    RestoringDivision.Holds 31 dividend r.divisorReg.toNat (k + 1) j
      ⟨(nextRemainder r).toNat, (nextQuotient r).toNat⟩ := by
  rw [toNat_nextRemainder hdividend h, toNat_nextQuotient hdividend h]
  exact h.step hdividend

end Round

/-! ## Magnitudes and signs -/

/-- The result of the loop, before its sign is put back. -/
def unsignedAnswer (q : DividerInput) : Word :=
  if inputIsRem q then inputDividendAbs q % inputDivisorAbs q
  else if inputDivisorAbs q = 0 then BitVec.allOnes 32
  else inputDividendAbs q / inputDivisorAbs q

def resultNeg (q : DividerInput) : Bool :=
  if inputIsRem q then inputDividendNeg q
  else !inputDivideByZero q && (inputDividendNeg q ^^ inputDivisorNeg q)

def answer (q : DividerInput) : Word := if resultNeg q then -unsignedAnswer q else unsignedAnswer q

theorem inputDividendAbs_eq :
    inputDividendAbs q = if inputDividendNeg q then -q.src1 else q.src1 := by
  simp only [inputDividendAbs, BitVec.neg_eq_not_add]
  rfl

theorem inputDivisorAbs_eq :
    inputDivisorAbs q = if inputDivisorNeg q then -q.src2 else q.src2 := by
  simp only [inputDivisorAbs, BitVec.neg_eq_not_add]
  rfl

theorem inputDivisorAbs_eq_zero : inputDivisorAbs q = 0 ↔ q.src2 = 0 := by
  rw [inputDivisorAbs_eq]
  split
  · exact BitVec.neg_eq_zero_iff
  · rfl

theorem unsignedResult_eq (hrem : r.resultIsRemReg = inputIsRem q)
    (h : RestoringDivision.Holds 31 (inputDividendAbs q).toNat (inputDivisorAbs q).toNat 32 0
      ⟨(nextRemainder r).toNat, (nextQuotient r).toNat⟩) :
    unsignedResult r = unsignedAnswer q := by
  have hremainder : (nextRemainder r).toNat =
      (inputDividendAbs q).toNat % (inputDivisorAbs q).toNat := h.result.1
  have hquotient : (nextQuotient r).toNat = if (inputDivisorAbs q).toNat = 0 then 2 ^ 32 - 1
      else (inputDividendAbs q).toNat / (inputDivisorAbs q).toNat := h.result.2
  apply BitVec.eq_of_toNat_eq
  rw [unsignedResult, unsignedAnswer, hrem]
  cases inputIsRem q with
  | true =>
    have hlt : (inputDividendAbs q).toNat % (inputDivisorAbs q).toNat < 2 ^ 32 :=
      (Nat.mod_le _ _).trans_lt (inputDividendAbs q).isLt
    simp only [if_true, BitVec.extractLsb'_toNat, Nat.shiftRight_zero, hremainder,
      Nat.mod_eq_of_lt hlt, BitVec.toNat_umod]
  | false =>
    by_cases hz : inputDivisorAbs q = 0
    · simpa [hz] using hquotient
    · have hne : (inputDivisorAbs q).toNat ≠ 0 := by
        intro hzero
        exact hz (BitVec.eq_of_toNat_eq hzero)
      rw [if_neg hne] at hquotient
      simpa only [Bool.false_eq_true, if_false, hz, BitVec.toNat_udiv] using hquotient

theorem inputDividendNeg_of_signed (h : inputIsSigned q = true) :
    inputDividendNeg q = q.src1.msb := by
  rw [inputDividendNeg, h, Bool.true_and, BitVec.msb_eq_getLsbD_last]

theorem inputDivisorNeg_of_signed (h : inputIsSigned q = true) :
    inputDivisorNeg q = q.src2.msb := by
  rw [inputDivisorNeg, h, Bool.true_and, BitVec.msb_eq_getLsbD_last]

theorem answer_of_zero (hrem : inputIsRem q = false) (hz : q.src2 = 0) :
    answer q = BitVec.allOnes 32 := by
  have hneg : resultNeg q = false := by
    simp [resultNeg, hrem, inputDivideByZero, hz]
  have hdivisor : inputDivisorAbs q = 0 := inputDivisorAbs_eq_zero.mpr hz
  simp [answer, hneg, unsignedAnswer, hrem, hdivisor]

theorem answer_of_quotient (hrem : inputIsRem q = false) (hz : q.src2 ≠ 0) :
    answer q = if inputDividendNeg q ^^ inputDivisorNeg q
      then -(inputDividendAbs q / inputDivisorAbs q)
      else inputDividendAbs q / inputDivisorAbs q := by
  have hdivisor : inputDivisorAbs q ≠ 0 := inputDivisorAbs_eq_zero.not.mpr hz
  have hnonzero : inputDivideByZero q = false := by simpa [inputDivideByZero] using hz
  have hneg : resultNeg q = (inputDividendNeg q ^^ inputDivisorNeg q) := by
    simp [resultNeg, hrem, hnonzero]
  simp only [answer, hneg, unsignedAnswer, hrem, Bool.false_eq_true, if_false, hdivisor]

theorem answer_of_remainder (hrem : inputIsRem q = true) :
    answer q = if inputDividendNeg q then -(inputDividendAbs q % inputDivisorAbs q)
      else inputDividendAbs q % inputDivisorAbs q := by
  simp only [answer, resultNeg, unsignedAnswer, hrem, if_true]

/-- Correcting the sign of the magnitudes' quotient and remainder gives the results
that RISC-V defines. -/
theorem answers_answer : Answers q (answer q) := by
  intro op hop
  cases op with
  | div =>
    have hrem : inputIsRem q = false := by simp [inputIsRem, hop, DivOp.func3t]
    have hsigned : inputIsSigned q = true := by simp [inputIsSigned, hop, DivOp.func3t]
    -- the sign is not corrected for a zero divisor, so all ones stay all ones
    by_cases hz : q.src2 = 0
    · rw [answer_of_zero hrem hz, DivOp.result, if_pos hz]
    · rw [answer_of_quotient hrem hz, DivOp.result_div hz, BitVec.sdiv_eq, inputDividendAbs_eq,
        inputDivisorAbs_eq, inputDividendNeg_of_signed hsigned, inputDivisorNeg_of_signed hsigned]
      cases q.src1.msb <;> cases q.src2.msb <;> rfl
  | divu =>
    have hrem : inputIsRem q = false := by simp [inputIsRem, hop, DivOp.func3t]
    have hsigned : inputIsSigned q = false := by simp [inputIsSigned, hop, DivOp.func3t]
    by_cases hz : q.src2 = 0
    · rw [answer_of_zero hrem hz, DivOp.result, if_pos hz]
    · rw [answer_of_quotient hrem hz, DivOp.result_divu hz]
      simp [inputDividendAbs, inputDivisorAbs, inputDividendNeg, inputDivisorNeg, hsigned]
  | rem =>
    have hrem : inputIsRem q = true := by simp [inputIsRem, hop, DivOp.func3t]
    have hsigned : inputIsSigned q = true := by simp [inputIsSigned, hop, DivOp.func3t]
    rw [answer_of_remainder hrem, DivOp.result_rem, BitVec.srem_eq, inputDividendAbs_eq,
      inputDivisorAbs_eq, inputDividendNeg_of_signed hsigned, inputDivisorNeg_of_signed hsigned]
    cases q.src1.msb <;> cases q.src2.msb <;> rfl
  | remu =>
    have hrem : inputIsRem q = true := by simp [inputIsRem, hop, DivOp.func3t]
    have hsigned : inputIsSigned q = false := by simp [inputIsSigned, hop, DivOp.func3t]
    rw [answer_of_remainder hrem, DivOp.result_remu]
    simp [inputDividendAbs, inputDivisorAbs, inputDividendNeg, inputDivisorNeg, hsigned]

/-! ## The divider as a functional unit -/

/-- What the registers hold while the divider works on `q`, by the cycles still needed. -/
inductive Working (q : DividerInput) : ℕ → Regs → Prop
  | busy {r : Regs} {k j : ℕ} (hstate : r.state = .busy)
      (hrem : r.resultIsRemReg = inputIsRem q) (hneg : r.resultNegReg = resultNeg q)
      (hdivisor : r.divisorReg = inputDivisorAbs q) (hiteration : r.iterationReg.toNat = k)
      (hloop : RestoringDivision.Holds 31 (inputDividendAbs q).toNat r.divisorReg.toNat k (j + 1)
        (loop r)) :
      Working q (j + 2) r
  | correct {r : Regs} (hstate : r.state = .correct) (hneg : r.resultNegReg = resultNeg q)
      (hresult : r.resultReg = unsignedAnswer q) : Working q 1 r
  | done {r : Regs} (hstate : r.state = .done) (hresult : r.resultReg = answer q) :
      Working q 0 r

theorem working_start (h : r.state = .idle) (outReady : Bool) :
    Working q 33 (next r q true outReady) := by
  have hnext : next r q true outReady =
      { r with
        resultIsRemReg := inputIsRem q, resultNegReg := resultNeg q
        divisorReg := inputDivisorAbs q, quotientReg := inputDividendAbs q
        remainderReg := 0, iterationReg := 0, state := .busy } := by
    simp only [next, h, if_true]
    rfl
  rw [hnext]
  exact .busy rfl rfl rfl rfl rfl (RestoringDivision.holds_zero (inputDividendAbs q).isLt)

theorem working_advance {n : ℕ} (h : Working q (n + 1) r) (k : DividerInput)
    (inValid outReady : Bool) : Working q n (next r k inValid outReady) := by
  cases h with
  | @busy r rounds j hstate hrem hneg hdivisor hiteration hloop =>
    have hround := round (inputDividendAbs q).isLt hloop
    have hrounds : rounds + (j + 1) = 32 := hloop.rounds
    by_cases hlast : r.iterationReg = 31#5
    · -- the last round goes to the result register
      have hj : j = 0 := by
        have : r.iterationReg.toNat = 31 := by rw [hlast]; rfl
        omega
      subst hj
      have hk : rounds + 1 = 32 := by omega
      rw [hk, hdivisor] at hround
      have hnext : next r k inValid outReady =
          { r with resultReg := unsignedResult r, state := .correct } := by
        simp [next, hstate, hlast]
      rw [hnext]
      exact .correct rfl hneg (unsignedResult_eq hrem hround)
    · have hlt : rounds < 31 := by
        have hne : r.iterationReg.toNat ≠ 31 := fun h => hlast (BitVec.eq_of_toNat_eq h)
        omega
      obtain ⟨j, rfl⟩ : ∃ j', j = j' + 1 := ⟨j - 1, by omega⟩
      have hnext : next r k inValid outReady =
          { r with quotientReg := nextQuotient r, remainderReg := nextRemainder r
                   iterationReg := r.iterationReg + 1 } := by
        simp [next, hstate, hlast]
      have hcount : (r.iterationReg + 1).toNat = rounds + 1 := by
        have hone : (1 : BitVec 5).toNat = 1 := rfl
        rw [BitVec.toNat_add, hiteration, hone]
        exact Nat.mod_eq_of_lt (by omega)
      rw [hnext]
      exact .busy hstate hrem hneg hdivisor hcount hround
  | @correct r hstate hneg hresult =>
    have hnext : next r k inValid outReady =
        { r with resultReg := correctedResult r, state := .done } := by
      simp [next, hstate]
    rw [hnext]
    refine .done rfl ?_
    simp only [correctedResult, hneg, hresult, answer, BitVec.neg_eq_not_add]
    rfl

theorem ports_inReady : ports.inReady r = true ↔ r.state = .idle := by
  simp [ports, inReady]

theorem serial : Serial machine ports (fun _ => 33) Answers Working where
  init := by
    intro r hinit
    exact ports_inReady.mpr hinit
  quiet := by
    intro r hready
    have hidle : r.state = .idle := ports_inReady.mp hready
    simp [ports, outValid, hidle]
  rest := by
    intro i r hready hvalid
    have hidle : r.state = .idle := ports_inReady.mp hready
    have hvalid : i.inValid = false := hvalid
    exact ports_inReady.mpr (by simp [machine, next, hidle, hvalid])
  start := by
    intro i r hready hvalid
    have hidle : r.state = .idle := ports_inReady.mp hready
    have hvalid : i.inValid = true := hvalid
    have hstart := working_start (q := i.bits) hidle i.outReady
    simpa [machine, ports, hvalid] using hstart
  busy := by
    intro q k r h
    cases h <;> simp [ports, inReady, *]
  offers := by
    intro q k r h
    cases h <;> simp [ports, outValid, *]
  answers := by
    intro q r h
    cases h with
    | done hstate hresult =>
      show Answers q r.resultReg
      rw [hresult]
      exact answers_answer
  advance := fun h => working_advance h _ _ _
  wait := by
    intro q i r h hwait
    cases h with
    | done hstate hresult =>
      have hwait : i.outReady = false := hwait
      have hnext : machine.next i r = r := by simp [machine, next, hstate, hwait]
      rw [hnext]
      exact .done hstate hresult
  release := by
    intro q i r h hready
    cases h with
    | done hstate hresult =>
      have hready : i.outReady = true := hready
      exact ports_inReady.mpr (by simp [machine, next, hstate, hready])

/-- Whatever operations are requested and however long their results have to wait, the
divider delivers the result that RISC-V defines for each, in order, and offers it from the
34th cycle on whatever the operands are. -/
theorem results_match_riscv (R : Run machine) :
    (∀ n, ∃ done pending, R.events ports.accepted n = done ++ pending ∧ pending.length ≤ 1 ∧
      List.Forall₂ Answers done (R.events ports.delivered n)) ∧
    ∀ t q, ports.accepted (R.input t) (R.state t) = some q →
      ∀ u, t < u → (∀ v, t + 34 ≤ v → v < u → (R.input v).outReady = false) →
        (outValid (R.state u) = true ↔ t + 34 ≤ u) ∧
          (t + 34 ≤ u → Answers q (outBits (R.state u))) := by
  refine ⟨serial.served R, ?_⟩
  intro t q haccepted u hu hwait
  exact serial.offered R haccepted hu hwait

/-- The smallest number over and over divided by minus one, with the result left waiting. -/
def overflowRun : Run machine :=
  machine.runFrom (fun _ => ⟨⟨0x80000000#32, 0xffffffff#32, 4#3⟩, true, false⟩)
    ⟨.idle, false, false, 0, 0, 0, 0, 0⟩ rfl

theorem results_match_riscv_overflow :
    (outValid (overflowRun.state 40) = true ↔ 34 ≤ 40) ∧
      outBits (overflowRun.state 40) = 0x80000000#32 := by
  have hrun := (results_match_riscv overflowRun).2 0 ⟨0x80000000#32, 0xffffffff#32, 4#3⟩ rfl 40
    (by decide) (fun _ _ _ => rfl)
  refine ⟨hrun.1, ?_⟩
  have hanswer := hrun.2 (by decide) .div rfl
  rw [hanswer]
  decide

end Divider
end Core
end Jyd
