import Jyd.Hdl.FunctionalUnit
import Jyd.Isa.MExtension
import Jyd.Soc.PowerUp

/-!
# Multiplication — whichever pipeline answers, it answers with the RISC-V product

The IP blocks shift in every cycle and know nothing of requests.  `Working` places the
one valid bit of the controller beside the stage that holds the product of the request.
-/

namespace Jyd
namespace Core
namespace Multiplier

open Hdl Isa

/-- Where the narrow blocks may be chosen, they are fed the operands of the request. -/
def NarrowOperands (q : MultiplierInput) : Prop :=
  q.noLate = true → q.prevRs1 = false →
    q.rawSrc1 = q.src1 ∧ (if q.prevRs2 then q.prevData else q.rawSrc2) = q.src2

/-- The wires that drive the multiplier in one cycle. -/
structure In where
  bits : MultiplierInput
  narrowOperands : NarrowOperands bits
  inValid : Bool
  outReady : Bool

def machine : Machine In Regs where
  init := fun r => r.state = .idle
  next := fun i r => next r i.bits i.inValid i.outReady

def ports : UnitPorts In Regs MultiplierInput Word where
  inValid := In.inValid
  inBits := In.bits
  inReady := inReady
  outValid := outValid
  outBits := outBits
  outReady := In.outReady

/-- `w` is the result that RISC-V defines for the operation `q`. -/
def Answers (q : MultiplierInput) (w : Word) : Prop :=
  ∀ op : MulOp, q.func3t = op.func3t → w = op.result q.src1 q.src2

variable {r : Regs} {q : MultiplierInput} {i : In}

/-! ## Products -/

/-- What the chosen pipeline computes. -/
def answer (q : MultiplierInput) : Word :=
  if q.func3t == 0#3 then q.src1 * q.src2 else (product q).extractLsb' 32 32

/-- An operand widened by its sign or by a zero. -/
theorem toInt_widen (signed : Bool) (x : Word) :
    (BitVec.ofBool (signed && x.getLsbD 31) ++ x).toInt =
      if signed then x.toInt else (x.toNat : ℤ) := by
  have hx : x.toNat < 2 ^ 32 := x.isLt
  have hmsb : x.getLsbD 31 = decide (2 ^ 31 ≤ x.toNat) := by
    rw [← BitVec.msb_eq_getLsbD_last, BitVec.msb_eq_decide]
  have htop : (BitVec.ofBool (signed && x.getLsbD 31) ++ x).toNat =
      (signed && x.getLsbD 31).toNat * 2 ^ 32 + x.toNat := by
    rw [BitVec.toNat_append, ← Nat.shiftLeft_add_eq_or_of_lt hx, Nat.shiftLeft_eq,
      BitVec.toNat_ofBool]
  rw [BitVec.toInt_eq_toNat_cond, BitVec.toInt_eq_toNat_cond, htop, hmsb]
  cases signed with
  | false =>
    simp only [Bool.false_and, Bool.toNat_false, Bool.false_eq_true, if_false]
    split <;> omega
  | true =>
    by_cases hneg : 2 ^ 31 ≤ x.toNat
    · simp only [hneg, decide_true, Bool.true_and, Bool.toNat_true, if_true]
      split <;> split <;> omega
    · simp only [hneg, decide_false, Bool.true_and, Bool.toNat_false, if_true]
      split <;> split <;> omega

theorem product_eq : product q = BitVec.ofInt 66 ((aExt q).toInt * (bExt q).toInt) := by
  rw [BitVec.ofInt_mul]
  rfl

theorem high_ofInt (z : ℤ) :
    (BitVec.ofInt 66 z).extractLsb' 32 32 = BitVec.ofInt 32 (z / 2 ^ 32) := by
  apply BitVec.eq_of_toNat_eq
  simp only [BitVec.extractLsb'_toNat, BitVec.toNat_ofInt, Nat.shiftRight_eq_div_pow]
  omega

/-- The product that a pipeline computes is the result that RISC-V defines. -/
theorem answers_answer : Answers q (answer q) := by
  intro op hop
  -- the slow pipeline multiplies two 33-bit numbers exactly
  have hhigh : q.func3t ≠ 0#3 → answer q =
      BitVec.ofInt 32 ((aExt q).toInt * (bExt q).toInt / 2 ^ 32) := by
    intro hne
    simp only [answer, beq_eq_false_iff_ne.mpr hne, Bool.false_eq_true, if_false]
    rw [product_eq, high_ofInt]
  cases op with
  | mul =>
    simp only [answer, hop, MulOp.func3t, MulOp.result]
    rw [BitVec.ofInt_mul, BitVec.ofInt_toInt, BitVec.ofInt_toInt]
    rfl
  | mulh =>
    rw [hhigh (by rw [hop]; decide), aExt, bExt, toInt_widen, toInt_widen, hop]
    rfl
  | mulhsu =>
    rw [hhigh (by rw [hop]; decide), aExt, bExt, toInt_widen, toInt_widen, hop]
    rfl
  | mulhu =>
    rw [hhigh (by rw [hop]; decide), aExt, bExt, toInt_widen, toInt_widen, hop]
    exact BitVec.ofInt_natCast _ _

/-! ## The four pipelines -/

inductive Lane
  | slow
  | fast
  /-- The narrow block fed with the operands themselves. -/
  | narrow
  /-- The narrow block fed through `narrowPrevAReg` and `narrowPrevBReg`. -/
  | narrowPrev
  deriving DecidableEq, Repr

namespace Lane

/-- The stages between the first one and the output. -/
def depth : Lane → ℕ
  | slow => 3
  | fast => 2
  | narrow => 0
  | narrowPrev => 1

/-- The pipeline that a request is sent through. -/
def ofRequest (q : MultiplierInput) : Lane :=
  if isNarrowFast q then (if q.prevRs2 then narrowPrev else narrow)
  else if q.func3t == 0#3 then fast else slow

/-- The pipeline that the registered flags select. -/
def ofRegs (r : Regs) : Lane :=
  if r.isNarrowFastReg then (if r.narrowSelectReg then narrowPrev else narrow)
  else if r.isFastReg then fast else slow

/-- The low or high word of the product in a stage. -/
def stage (r : Regs) : Lane → ℕ → Word
  | slow, 0 => r.slowPipe.1.extractLsb' 32 32
  | slow, 1 => r.slowPipe.2.1.extractLsb' 32 32
  | slow, 2 => r.slowPipe.2.2.1.extractLsb' 32 32
  | slow, _ => r.slowPipe.2.2.2.extractLsb' 32 32
  | fast, 0 => r.fastPipe.1
  | fast, 1 => r.fastPipe.2.1
  | fast, _ => r.fastPipe.2.2
  | narrow, _ => r.narrowPipe0
  | narrowPrev, 0 => r.narrowPrevAReg.setWidth 32 * r.narrowPrevBReg.setWidth 32
  | narrowPrev, _ => r.narrowPipe1

/-- The controller's valid bit for a stage. -/
def validBit (r : Regs) : Lane → ℕ → Bool
  | slow, n => r.slowValidPipe.getLsbD n
  | fast, n => r.fastValidPipe.getLsbD n
  | narrow, n => r.narrowValidPipe.getLsbD n
  | narrowPrev, n => r.narrowValidPipe.getLsbD n

end Lane

theorem resultValid_eq : resultValid r = (Lane.ofRegs r).validBit r (Lane.ofRegs r).depth := by
  simp only [resultValid, Lane.ofRegs]
  split
  · split <;> rfl
  · split <;> rfl

theorem result_eq : result r = (Lane.ofRegs r).stage r (Lane.ofRegs r).depth := by
  simp only [result, Lane.ofRegs]
  split
  · split <;> rfl
  · split <;> rfl

/-- The registers of a busy cycle that does not finish. -/
def shift (r : Regs) (k : MultiplierInput) : Regs :=
  { clockPipes r k with
    slowValidPipe := r.slowValidPipe <<< 1
    fastValidPipe := r.fastValidPipe <<< 1
    narrowValidPipe := r.narrowValidPipe <<< 1 }

theorem stage_shift (l : Lane) {n : ℕ} (h : n < l.depth) (k : MultiplierInput) :
    l.stage (shift r k) (n + 1) = l.stage r n := by
  cases l with
  | slow =>
    have hn : n = 0 ∨ n = 1 ∨ n = 2 := by simp only [Lane.depth] at h; omega
    rcases hn with rfl | rfl | rfl <;> rfl
  | fast =>
    have hn : n = 0 ∨ n = 1 := by simp only [Lane.depth] at h; omega
    rcases hn with rfl | rfl <;> rfl
  | narrow => exact absurd h (Nat.not_lt_zero n)
  | narrowPrev =>
    have hn : n = 0 := by simp only [Lane.depth] at h; omega
    subst hn
    rfl

theorem validBit_shift_zero (l : Lane) (k : MultiplierInput) :
    l.validBit (shift r k) 0 = false := by
  cases l <;> simp [Lane.validBit, shift]

theorem getLsbD_shiftLeft_one {w n : ℕ} (x : BitVec w) (h : n + 1 < w) :
    (x <<< 1).getLsbD (n + 1) = x.getLsbD n := by
  have hone : ¬ n + 1 < 1 := by omega
  rw [BitVec.getLsbD_shiftLeft, Nat.add_sub_cancel, decide_eq_true h, decide_eq_false hone]
  rfl

theorem validBit_shift_succ (l : Lane) {n : ℕ} (h : n < l.depth) (k : MultiplierInput) :
    l.validBit (shift r k) (n + 1) = l.validBit r n := by
  cases l with
  | slow => exact getLsbD_shiftLeft_one _ (Nat.succ_lt_succ h)
  | fast => exact getLsbD_shiftLeft_one _ (Nat.succ_lt_succ h)
  | narrow => exact absurd h (Nat.not_lt_zero n)
  | narrowPrev => exact getLsbD_shiftLeft_one _ (Nat.succ_lt_succ h)

/-! ## The multiplier as a functional unit -/

/-- The product of `q` is in stage `n` of the selected pipeline, and no other stage is
marked valid. -/
structure InStage (q : MultiplierInput) (n : ℕ) (r : Regs) : Prop where
  lane : Lane.ofRegs r = Lane.ofRequest q
  le_depth : n ≤ (Lane.ofRequest q).depth
  valid : ∀ m ≤ (Lane.ofRequest q).depth, (Lane.ofRequest q).validBit r m = decide (m = n)
  product : (Lane.ofRequest q).stage r n = answer q

theorem InStage.shift {n : ℕ} (h : InStage q n r) (hlt : n < (Lane.ofRequest q).depth)
    (k : MultiplierInput) : InStage q (n + 1) (shift r k) where
  lane := h.lane
  le_depth := hlt
  valid := by
    intro m hm
    cases m with
    | zero => simp [validBit_shift_zero]
    | succ m =>
      rw [validBit_shift_succ _ hm, h.valid m (by omega)]
      simp
  product := by rw [stage_shift _ hlt, h.product]

theorem InStage.resultValid_iff {n : ℕ} (h : InStage q n r) :
    resultValid r = true ↔ n = (Lane.ofRequest q).depth := by
  rw [resultValid_eq, h.lane, h.valid _ le_rfl, decide_eq_true_iff, eq_comm]

theorem InStage.result_eq (h : InStage q (Lane.ofRequest q).depth r) : result r = answer q := by
  rw [Multiplier.result_eq, h.lane, h.product]

/-- What the registers hold while the multiplier works on `q`, by the cycles still needed. -/
inductive Working (q : MultiplierInput) : ℕ → Regs → Prop
  | busy {r : Regs} {n k : ℕ} (hstate : r.state = .busy) (hstage : InStage q n r)
      (hk : n + k = (Lane.ofRequest q).depth) : Working q k r
  | done {r : Regs} (hstate : r.state = .done) (hresult : r.resultReg = answer q) : Working q 0 r

theorem low_half {x : Word} (h : x.extractLsb' 16 16 = 0#16) :
    (x.extractLsb' 0 16).setWidth 32 = x := by
  have hx : x.toNat < 2 ^ 32 := x.isLt
  have hhigh : x.toNat / 2 ^ 16 % 2 ^ 16 = 0 := by
    simpa [Nat.shiftRight_eq_div_pow] using congrArg BitVec.toNat h
  apply BitVec.eq_of_toNat_eq
  simp only [BitVec.toNat_setWidth, BitVec.extractLsb'_toNat, Nat.shiftRight_zero]
  omega

theorem isNarrowFast_operands (hnarrow : NarrowOperands q) (h : isNarrowFast q = true) :
    q.func3t = 0#3 ∧ (q.rawSrc1.extractLsb' 0 16).setWidth 32 = q.src1 ∧
      ((if q.prevRs2 then q.prevData else q.rawSrc2).extractLsb' 0 16).setWidth 32 = q.src2 := by
  simp only [isNarrowFast, Bool.and_eq_true, beq_iff_eq, Bool.not_eq_true'] at h
  rcases h with ⟨⟨⟨⟨hmul, hlate⟩, hprev⟩, h1⟩, h2⟩
  rcases hnarrow hlate hprev with ⟨hraw1, hraw2⟩
  rw [hraw1, hraw2]
  exact ⟨hmul, low_half h1, low_half h2⟩

/-- The first stage takes the product of an accepted request. -/
theorem inStage_start (hnarrow : NarrowOperands q) (h : r.state = .idle) (outReady : Bool) :
    InStage q 0 (next r q true outReady) := by
  refine ⟨by simp [next, h, Lane.ofRegs, Lane.ofRequest], Nat.zero_le _, ?_, ?_⟩
  · intro m _
    cases hn : isNarrowFast q with
    | true =>
      cases hp : q.prevRs2 <;>
        simp [Lane.ofRequest, hn, hp, Lane.validBit, next, h, BitVec.getLsbD_one]
    | false =>
      by_cases hmul : q.func3t = 0#3 <;>
        simp [Lane.ofRequest, hn, hmul, Lane.validBit, next, h, BitVec.getLsbD_one]
  · cases hn : isNarrowFast q with
    | true =>
      rcases isNarrowFast_operands hnarrow hn with ⟨hmul, hsrc1, hsrc2⟩
      -- the first lane multiplies at once, the second one reads its two registers
      cases hp : q.prevRs2 with
      | true =>
        rw [hp, if_pos rfl] at hsrc2
        simp [Lane.ofRequest, hn, hp, Lane.stage, next, h, answer, hmul, hsrc1, hsrc2]
      | false =>
        rw [hp, if_neg Bool.false_ne_true] at hsrc2
        simp [Lane.ofRequest, hn, hp, Lane.stage, next, h, clockPipes, answer, hmul, hsrc1,
          hsrc2]
    | false =>
      by_cases hmul : q.func3t = 0#3 <;>
        simp [Lane.ofRequest, hn, hmul, Lane.stage, next, h, clockPipes, answer]

theorem next_busy (h : r.state = .busy) (k : MultiplierInput) (inValid outReady : Bool) :
    next r k inValid outReady =
      if resultValid r then
        (if outReady then { shift r k with state := .idle }
         else { shift r k with resultReg := result r, state := .done })
      else shift r k := by
  simp only [next, h]
  rfl

theorem working_advance {n : ℕ} (h : Working q (n + 1) r) (k : MultiplierInput)
    (inValid outReady : Bool) : Working q n (next r k inValid outReady) := by
  cases h with
  | @busy r s _ hstate hstage hk =>
    have hpending : resultValid r = false := by
      simpa using hstage.resultValid_iff.not.mpr (by omega)
    rw [next_busy hstate, hpending]
    exact .busy hstate (hstage.shift (by omega) k) (by omega)

theorem working_wait (h : Working q 0 r) (k : MultiplierInput) (inValid : Bool) :
    Working q 0 (next r k inValid false) := by
  cases h with
  | @busy r s _ hstate hstage hk =>
    -- the result leaves the pipeline in this cycle, so it is kept in `resultReg`
    obtain rfl : s = (Lane.ofRequest q).depth := hk
    rw [next_busy hstate, hstage.resultValid_iff.mpr rfl]
    exact .done rfl hstage.result_eq
  | done hstate hresult =>
    have hnext : next r k inValid false = clockPipes r k := by simp [next, hstate]
    rw [hnext]
    exact .done hstate hresult

theorem working_release (h : Working q 0 r) (k : MultiplierInput) (inValid : Bool) :
    (next r k inValid true).state = .idle := by
  cases h with
  | @busy r s _ hstate hstage hk =>
    obtain rfl : s = (Lane.ofRequest q).depth := hk
    rw [next_busy hstate, hstage.resultValid_iff.mpr rfl]
    rfl
  | done hstate hresult => simp [next, hstate]

theorem ports_inReady : ports.inReady r = true ↔ r.state = .idle := by
  simp [ports, inReady]

theorem serial :
    Serial machine ports (fun q => (Lane.ofRequest q).depth) Answers Working where
  init := by
    intro r hinit
    exact ports_inReady.mpr hinit
  quiet := by
    intro r hready
    have hidle : r.state = .idle := ports_inReady.mp hready
    simp [ports, outValid, hidle]
  rest := by
    intro i r hready hvalid
    have hidle : r.state = .idle := ports_inReady.mp hready
    have hvalid : i.inValid = false := hvalid
    exact ports_inReady.mpr (by simp [machine, next, clockPipes, hidle, hvalid])
  start := by
    intro i r hready hvalid
    have hidle : r.state = .idle := ports_inReady.mp hready
    have hvalid : i.inValid = true := hvalid
    have hbusy : (next r i.bits true i.outReady).state = .busy := by simp [next, hidle]
    have hstage := inStage_start i.narrowOperands hidle i.outReady
    have hstart : Working i.bits (Lane.ofRequest i.bits).depth (next r i.bits true i.outReady) :=
      .busy hbusy hstage (Nat.zero_add _)
    simpa [machine, ports, hvalid] using hstart
  busy := by
    intro q k r h
    cases h <;> simp [ports, inReady, *]
  offers := by
    intro q k r h
    cases h with
    | @busy r s k hstate hstage hk =>
      have hvalid : outValid r = resultValid r := by simp [outValid, hstate]
      show outValid r = true ↔ k = 0
      rw [hvalid, hstage.resultValid_iff]
      omega
    | done hstate hresult => simp [ports, outValid, hstate]
  answers := by
    intro q r h
    have hbits : outBits r = answer q := by
      cases h with
      | @busy r s _ hstate hstage hk =>
        obtain rfl : s = (Lane.ofRequest q).depth := hk
        simpa [outBits, hstate] using hstage.result_eq
      | done hstate hresult => simp [outBits, hstate, hresult]
    show Answers q (outBits r)
    rw [hbits]
    exact answers_answer
  advance := fun h => working_advance h _ _ _
  wait := by
    intro q i r h hwait
    have hwait : i.outReady = false := hwait
    have hnext := working_wait h i.bits i.inValid
    simpa [machine, hwait] using hnext
  release := by
    intro q i r h hready
    have hready : i.outReady = true := hready
    have hidle := working_release h i.bits i.inValid
    exact ports_inReady.mpr (by simpa [machine, hready] using hidle)

end Multiplier

/-! ## The multiplier in EXU -/

namespace EXU

open Hdl Isa

def machine : Machine In Regs where
  init := CPUCore.EXUReset
  next := fun i r => next r i

/-- What EXU puts on the multiplier's wires.  It has no late operand to offer, so the
narrow blocks get the operands themselves. -/
def multiplierDrive (i : In) : Multiplier.In where
  bits := SpecialExecutionCluster.multiplierIn (specialIn i)
  narrowOperands := fun _ _ => ⟨rfl, rfl⟩
  inValid := aluInValid i && SpecialExecutionCluster.isMulOp (specialIn i)
  outReady := i.outReady

def multiplierPorts : UnitPorts In Regs MultiplierInput Word :=
  Multiplier.ports.comap multiplierDrive (fun r => r.alu.multiplier)

theorem multiplier_serial :
    Serial machine multiplierPorts (fun q => (Multiplier.Lane.ofRequest q).depth)
      Multiplier.Answers (fun q k r => Multiplier.Working q k r.alu.multiplier) :=
  Multiplier.serial.comap multiplierDrive (fun r : Regs => r.alu.multiplier)
    (fun _ hreset => CPUCore.EXUReset.multiplierState hreset) (fun _ _ => rfl)

/-- EXU sends the multiplier the four multiply instructions and nothing else. -/
theorem multiplier_opcode {i : In} {r : Regs} {q : MultiplierInput}
    (h : multiplierPorts.accepted i r = some q) : ∃ op : MulOp, q.func3t = op.func3t := by
  rcases UnitPorts.accepted_eq_some.mp h with ⟨⟨hvalid, _⟩, rfl⟩
  have hmul : SpecialExecutionCluster.isMulOp (specialIn i) = true := by
    simp only [multiplierPorts, UnitPorts.comap, Multiplier.ports, multiplierDrive,
      Bool.and_eq_true] at hvalid
    exact hvalid.2
  have hlow : (func3t i.dinst).getLsbD 2 = false := by
    simp only [SpecialExecutionCluster.isMulOp, Bool.and_eq_true, Bool.not_eq_true'] at hmul
    exact hmul.2
  have hops : ∀ f : BitVec 3, f.getLsbD 2 = false → ∃ op : MulOp, f = op.func3t := by
    intro f hf
    have hcases : f = 0#3 ∨ f = 1#3 ∨ f = 2#3 ∨ f = 3#3 := by revert f; decide
    rcases hcases with rfl | rfl | rfl | rfl
    · exact ⟨.mul, rfl⟩
    · exact ⟨.mulh, rfl⟩
    · exact ⟨.mulhsu, rfl⟩
    · exact ⟨.mulhu, rfl⟩
  exact hops _ hlow

/-- Whatever instructions pass through EXU and however long their results have to wait,
the multiplier delivers for each multiply instruction the word that RISC-V defines, in
order, and offers it from the cycle in which its pipeline is through. -/
theorem products_match_riscv (R : Run machine) :
    (∀ n, ∃ done pending, R.events multiplierPorts.accepted n = done ++ pending ∧
      pending.length ≤ 1 ∧
      List.Forall₂ Multiplier.Answers done (R.events multiplierPorts.delivered n)) ∧
    ∀ t q, multiplierPorts.accepted (R.input t) (R.state t) = some q →
      (q.src1 = (R.input t).dinst.info.reg1 ∧ q.src2 = (R.input t).dinst.info.reg2 ∧
        ∃ op : MulOp, q.func3t = op.func3t) ∧
      ∀ u, t < u →
        (∀ v, t + 1 + (Multiplier.Lane.ofRequest q).depth ≤ v → v < u →
          (R.input v).outReady = false) →
        (Multiplier.outValid (R.state u).alu.multiplier = true ↔
          t + 1 + (Multiplier.Lane.ofRequest q).depth ≤ u) ∧
        (t + 1 + (Multiplier.Lane.ofRequest q).depth ≤ u →
          Multiplier.Answers q (Multiplier.outBits (R.state u).alu.multiplier)) := by
  refine ⟨multiplier_serial.served R, ?_⟩
  intro t q haccepted
  have hbits := (UnitPorts.accepted_eq_some.mp haccepted).2
  refine ⟨⟨?_, ?_, multiplier_opcode haccepted⟩, ?_⟩
  · rw [← hbits]
    rfl
  · rw [← hbits]
    rfl
  · intro u hu hwait
    exact multiplier_serial.offered R haccepted hu hwait

/-- `mulhu x3, x1, x2` with both operands at their largest value. -/
def mulhuLargest : IDU.In :=
  { Soc.decoding 0x0220b1b3#32 0xffffffff#32 with rdata2 := 0xffffffff#32 }

/-- EXU holds that instruction and nothing takes its result. -/
def stalledRun : Run machine :=
  machine.runFrom (fun _ => { Soc.exuOf mulhuLargest with outReady := false }) Soc.PowerUp.exu
    Soc.PowerUp.exuReset

theorem products_match_riscv_mulhu :
    (Multiplier.outValid (stalledRun.state 6).alu.multiplier = true ↔ 4 ≤ 6) ∧
      Multiplier.outBits (stalledRun.state 6).alu.multiplier = 0xfffffffe#32 := by
  have haccepted : multiplierPorts.accepted (stalledRun.input 0) (stalledRun.state 0) =
      some ⟨0xffffffff#32, 0xffffffff#32, 0xffffffff#32, 0xffffffff#32, 0, false, false, true,
        3#3⟩ := by
    decide +kernel
  have hrun := ((products_match_riscv stalledRun).2 0 _ haccepted).2 6 (by decide)
    (fun _ _ _ => rfl)
  refine ⟨hrun.1, ?_⟩
  have hanswer := hrun.2 (by decide) .mulhu rfl
  rw [hanswer]
  decide

end EXU
end Core
end Jyd
