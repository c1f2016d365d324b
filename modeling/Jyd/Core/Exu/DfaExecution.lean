import Jyd.Core.TokenScan

/-!
# DfaExecution — one numeric-DFA instruction on the controller

What an instruction does from the cycle it arrives to the cycle it leaves, for any delay
of the memory port and of the stage behind: `execute` is its effect on the counters and
its result.
-/

namespace Jyd
namespace Core
namespace NumericDfa

open Hdl NumericTokenDfa

/-! ## Instructions and memory -/

/-- An instruction with its operands, as EXU holds it. -/
structure Op where
  func3t : BitVec 3
  func7t : BitVec 7
  reg_v1 : Word
  reg_v2 : Word
  deriving DecidableEq, Repr

def Op.isStep (op : Op) : Bool := op.func3t == 5#3
def Op.isHistogram (op : Op) : Bool := op.isStep && op.func7t == 1#7

/-- The words behind the data port. -/
abbrev Mem := BitVec 30 → Word

def Mem.wordAt (mem : Mem) (address : Word) : Word := mem (address.extractLsb' 2 30)

def Mem.byteAt (mem : Mem) (address : Word) : BitVec 8 :=
  byteOf (mem.wordAt address) (address.extractLsb' 0 2).toNat

/-- The word step behind an address: the response is shifted to the first symbol. -/
def stepAt (mem : Mem) (state : BitVec 3) (address : Word) : Lane :=
  wordStep state (mem.wordAt address >>> (8 * (address.extractLsb' 0 2).toNat))
    (4#3 - (address.extractLsb' 0 2).setWidth 3)

/-! ## Counters -/

/-- The registers that live from one instruction to the next. -/
@[ext]
structure Counts where
  counters : Fin 8 → BitVec 12
  final : Fin 8 → BitVec 16
  pending : BitVec 8

def counts (r : Regs) : Counts := ⟨r.xdfaCounters, r.xdfaFinalCounters, r.xdfaPendingMask⟩

namespace Counts

variable (c : Counts)

def zero : Counts := ⟨fun _ => 0, fun _ => 0, 0⟩

/-- Add one to each transition counter in the mask. -/
def addMask {w : ℕ} (mask : BitVec w) : Counts :=
  { c with counters := fun s => if mask.getLsbD s then c.counters s + 1 else c.counters s }

def addFinal (state : BitVec 3) : Counts :=
  { c with final := fun s => if state.toNat = s then c.final s + 1 else c.final s }

/-- A histogram step: the pending mask grows until the token ends. -/
def histogram (l : Lane) : Counts :=
  if l.stopped then
    (({ c with pending := 0 } : Counts).addMask (c.pending ||| l.mask)).addFinal l.state
  else { c with pending := c.pending ||| l.mask }

end Counts

/-- The effect of an instruction on the counters, and its result. -/
def execute (mem : Mem) (op : Op) (c : Counts) : Counts × Word :=
  if op.isStep then
    let l := stepAt mem (op.reg_v1.extractLsb' 0 3) op.reg_v2
    (if op.isHistogram then c.histogram l else c, stepResult l)
  else
    let sel := stateIndex (op.reg_v1.extractLsb' 0 3)
    (if op.func3t == 0#3 then Counts.zero
      else if op.func3t == 3#3 then c.addMask op.reg_v1
      else c,
      if op.func3t == 2#3 then
        if op.func7t == 1#7 then (c.final sel).setWidth 32 else (c.counters sel).setWidth 32
      else 0)

/-! ## Cycles -/

/-- A cycle in which EXU presents `op` and a response, if any, is the word asked for. -/
structure Presents (mem : Mem) (op : Op) (r : Regs) (i : In) : Prop where
  valid : i.valid = true
  kind : i.isNumericDfa = true
  func3t : i.func3t = op.func3t
  func7t : i.func7t = op.func7t
  reg_v1 : i.reg_v1 = op.reg_v1
  reg_v2 : i.reg_v2 = op.reg_v2
  resp : r.xdfaWordState = .response → i.memResp.valid = true →
    i.memResp.bits = mem.wordAt r.xdfaWordAddress
  fire : i.outFire = (i.outReady && (!isNumericDfaStep i || r.xdfaWordState == .done))

/-- The cycles of one instruction: it waits any number of them and then leaves. -/
inductive Executes (mem : Mem) (op : Op) : Regs → Regs → Word → Prop
  | wait {r r' : Regs} {v : Word} {i : In} : Presents mem op r i → i.outFire = false →
      Executes mem op (next r i) r' v → Executes mem op r r' v
  | fire {r : Regs} {i : In} : Presents mem op r i → i.outFire = true →
      Executes mem op r (next r i) (xdfaWordResult r i)

/-- Instructions one behind the other, with any cycles between them that hold another
instruction or none. -/
inductive Runs (mem : Mem) : List Op → Regs → Regs → Prop
  | nil (r : Regs) : Runs mem [] r r
  | other {ops : List Op} {r r' : Regs} {i : In} : (i.valid && i.isNumericDfa) = false →
      Runs mem ops (next r i) r' → Runs mem ops r r'
  | exec {op : Op} {ops : List Op} {r r₁ r' : Regs} {v : Word} : Executes mem op r r₁ v →
      Runs mem ops r₁ r' → Runs mem (op :: ops) r r'

/-! ## What a step instruction will have done -/

/-- The outcome of the step that the controller is in the middle of. -/
def outcome (mem : Mem) (op : Op) (r : Regs) : Counts × Word :=
  let ofLane := fun l => (if op.isHistogram then (counts r).histogram l else counts r, stepResult l)
  match r.xdfaWordState with
  | .idle => ofLane (stepAt mem (op.reg_v1.extractLsb' 0 3) op.reg_v2)
  | .request => ofLane (stepAt mem r.xdfaWordStartState r.xdfaWordAddress)
  | .response => ofLane (stepAt mem r.xdfaWordStartState r.xdfaWordAddress)
  | .processLow => ofLane (wordStep r.xdfaWordStartState r.xdfaWordResponseData r.xdfaWordAvailable)
  | .processHigh => ofLane (xdfaWordHigh r)
  | .commit =>
    (((counts r).addMask r.xdfaCommitMask).addFinal r.xdfaCommitFinalState, r.xdfaWordStepResult)
  | .done => (counts r, r.xdfaWordStepResult)

variable {mem : Mem} {op : Op} {r r' : Regs} {i : In} {v : Word}

namespace Presents

variable (h : Presents mem op r i)

include h

theorem isStep_eq : isNumericDfaStep i = op.isStep := by
  simp [isNumericDfaStep, Op.isStep, h.kind, h.func3t]

theorem isHistogram_eq : isNumericDfaHistogramStep i = op.isHistogram := by
  simp [isNumericDfaHistogramStep, Op.isHistogram, h.isStep_eq, h.func7t]

theorem next_of_step (hstep : op.isStep = true) : next r i = control r i := by
  have hlocal : numericDfaLocalFire i = false := by
    simp [numericDfaLocalFire, h.isStep_eq, hstep]
  simp [next, hlocal]

end Presents

/-- Every cycle before the last keeps the outcome. -/
theorem outcome_next (h : Presents mem op r i) (hstep : op.isStep = true)
    (hwait : i.outFire = false) : outcome mem op (next r i) = outcome mem op r := by
  rw [h.next_of_step hstep]
  cases hs : r.xdfaWordState with
  | idle =>
    simp [outcome, control, hs, h.valid, h.isStep_eq, hstep, counts, h.reg_v1, h.reg_v2]
  | request =>
    cases hfire : i.memReqFire <;> simp [outcome, control, hs, hfire, counts]
  | response =>
    cases hresp : i.memResp.valid with
    | false => simp [outcome, control, hs, hresp, counts]
    | true => simp [outcome, control, hs, hresp, counts, h.resp hs hresp, stepAt]
  | processLow =>
    simp [outcome, control, hs, counts, xdfaWordHigh, xdfaWordLow, wordStep]
  | processHigh =>
    cases hhist : op.isHistogram with
    | false => simp [outcome, control, hs, h.isHistogram_eq, hhist, counts]
    | true =>
      cases hstop : (xdfaWordHigh r).stopped <;>
        simp [outcome, control, hs, h.isHistogram_eq, hhist, counts, hstop, Counts.histogram,
          Counts.addMask, Counts.addFinal]
  | commit =>
    simp [outcome, control, hs, counts, Counts.addMask, Counts.addFinal]
  | done =>
    simp [outcome, control, hs, hwait, counts]

theorem outcome_fire (h : Presents mem op r i) (hstep : op.isStep = true)
    (hfire : i.outFire = true) :
    outcome mem op r = (counts (next r i), xdfaWordResult r i) ∧
      (next r i).xdfaWordState = .idle := by
  have hdone : r.xdfaWordState = .done := by
    have hready := h.fire.symm.trans hfire
    simpa [h.isStep_eq, hstep] using (Bool.and_eq_true_iff.mp hready).2
  have hfunc3 : i.func3t = 5#3 := by
    rw [h.func3t]
    simpa [Op.isStep] using hstep
  rw [h.next_of_step hstep]
  simp [outcome, control, hdone, hfire, counts, xdfaWordResult, h.isStep_eq, hstep, hfunc3]

/-! ## Whole executions -/

theorem execute_of_step (hstep : op.isStep = true) (hidle : r.xdfaWordState = .idle) :
    outcome mem op r = execute mem op (counts r) := by
  simp [outcome, hidle, execute, hstep]

theorem Executes.outcome_eq (hstep : op.isStep = true) (h : Executes mem op r r' v) :
    outcome mem op r = (counts r', v) ∧ r'.xdfaWordState = .idle := by
  induction h with
  | wait hp hwait _ ih =>
    rw [← outcome_next hp hstep hwait]
    exact ih
  | fire hp hfire => exact outcome_fire hp hstep hfire

/-- A single-cycle instruction that has to wait changes nothing. -/
theorem next_of_wait (hp : Presents mem op r i) (hlocal : op.isStep = false)
    (hidle : r.xdfaWordState = .idle) (hwait : i.outFire = false) : next r i = r := by
  have hready : i.outReady = false := by
    have hfire := hp.fire.symm.trans hwait
    simpa [hp.isStep_eq, hlocal] using hfire
  simp [next, numericDfaLocalFire, hready, control, hidle, hp.isStep_eq, hlocal]

theorem next_of_local (hp : Presents mem op r i) (hlocal : op.isStep = false)
    (hidle : r.xdfaWordState = .idle) (hfire : i.outFire = true) :
    (counts (next r i), xdfaWordResult r i) = execute mem op (counts r) ∧
      (next r i).xdfaWordState = .idle := by
  have hready : i.outReady = true := (Bool.and_eq_true_iff.mp (hp.fire.symm.trans hfire)).1
  have hcontrol : control r i = r := by
    simp [control, hidle, hp.isStep_eq, hlocal]
  have hfires : numericDfaLocalFire i = true := by
    simp [numericDfaLocalFire, hp.valid, hready, hp.kind, hp.isStep_eq, hlocal]
  have hresult : xdfaWordResult r i = (execute mem op (counts r)).2 := by
    simp [xdfaWordResult, xdfaCounterRead, execute, hp.isStep_eq, hlocal, hp.func3t, hp.func7t,
      hp.reg_v1, counts]
  rw [hresult]
  by_cases h0 : op.func3t = 0#3
  · simp [next, hcontrol, hfires, hp.func3t, h0, execute, hlocal, counts, Counts.zero, hidle]
  by_cases h3 : op.func3t = 3#3
  · simp [next, hcontrol, hfires, hp.func3t, h3, execute, hlocal, counts, Counts.addMask, hidle,
      hp.reg_v1]
  · simp [next, hcontrol, hfires, hp.func3t, h0, h3, execute, hlocal, counts, hidle]

/-- Whatever the delays, an instruction that finds the controller idle has the effect and
the result of `execute`, and leaves the controller idle. -/
theorem Executes.eq_execute (hidle : r.xdfaWordState = .idle) (h : Executes mem op r r' v) :
    (counts r', v) = execute mem op (counts r) ∧ r'.xdfaWordState = .idle := by
  cases hstep : op.isStep with
  | true =>
    rcases h.outcome_eq hstep with ⟨hout, hleft⟩
    exact ⟨hout.symm.trans (execute_of_step hstep hidle), hleft⟩
  | false =>
    induction h with
    | wait hp hwait _ ih =>
      rw [next_of_wait hp hstep hidle hwait] at ih
      exact ih hidle
    | fire hp hfire => exact next_of_local hp hstep hidle hfire

theorem next_of_other (hother : (i.valid && i.isNumericDfa) = false)
    (hidle : r.xdfaWordState = .idle) : next r i = r := by
  have hstep : (i.valid && isNumericDfaStep i) = false := by
    rw [isNumericDfaStep, ← Bool.and_assoc, hother, Bool.false_and]
  have hlocal : numericDfaLocalFire i = false := by
    rw [numericDfaLocalFire, Bool.and_right_comm i.valid, hother, Bool.false_and, Bool.false_and]
  simp [next, hlocal, control, hidle, hstep]

theorem Runs.counts_eq {ops : List Op} (h : Runs mem ops r r') (hidle : r.xdfaWordState = .idle) :
    counts r' = ops.foldl (fun c op => (execute mem op c).1) (counts r) ∧
      r'.xdfaWordState = .idle := by
  induction h with
  | nil r => exact ⟨rfl, hidle⟩
  | other hother _ ih =>
    rw [next_of_other hother hidle] at ih
    exact ih hidle
  | exec hex _ ih =>
    obtain ⟨heq, hleft⟩ := hex.eq_execute hidle
    rw [List.foldl_cons, ← heq]
    exact ih hleft

/-! ## Every instruction can complete -/

/-- The cycle of a port and a following stage that never wait. -/
def promptly (mem : Mem) (op : Op) (r : Regs) : In where
  valid := true
  isNumericDfa := true
  func3t := op.func3t
  func7t := op.func7t
  reg_v1 := op.reg_v1
  reg_v2 := op.reg_v2
  memReqFire := true
  memResp := ⟨true, mem.wordAt r.xdfaWordAddress⟩
  outReady := true
  outFire := !op.isStep || r.xdfaWordState == .done

theorem presents_promptly : Presents mem op r (promptly mem op r) := by
  refine ⟨rfl, rfl, rfl, rfl, rfl, rfl, fun _ _ => rfl, ?_⟩
  simp [promptly, isNumericDfaStep, Op.isStep]

/-- The cycles that a step still needs when nothing waits. -/
def remaining : State → ℕ
  | .idle => 6
  | .request => 5
  | .response => 4
  | .processLow => 3
  | .processHigh => 2
  | .commit => 1
  | .done => 0

theorem remaining_next (hstep : op.isStep = true) (hs : r.xdfaWordState ≠ .done) :
    remaining (next r (promptly mem op r)).xdfaWordState < remaining r.xdfaWordState := by
  rw [presents_promptly.next_of_step hstep]
  have hisStep : isNumericDfaStep (promptly mem op r) = true :=
    presents_promptly.isStep_eq.trans hstep
  cases hstate : r.xdfaWordState with
  | idle =>
    have hvalid : (promptly mem op r).valid = true := rfl
    simp [control, hstate, hisStep, hvalid, remaining]
  | request => simp [control, hstate, promptly, remaining]
  | response => simp [control, hstate, promptly, remaining]
  | processLow => simp [control, hstate, remaining]
  | processHigh =>
    cases hhist : isNumericDfaHistogramStep (promptly mem op r) <;>
      cases hstop : (xdfaWordHigh r).stopped <;>
        simp [control, hstate, hhist, hstop, remaining]
  | commit => simp [control, hstate, remaining]
  | done => exact absurd hstate hs

theorem executes_exists (mem : Mem) (op : Op) (r : Regs) : ∃ r' v, Executes mem op r r' v := by
  cases hstep : op.isStep with
  | false => exact ⟨_, _, .fire presents_promptly (by simp [promptly, hstep])⟩
  | true =>
    -- the number of cycles left decreases until the step is done
    induction hn : remaining r.xdfaWordState using Nat.strong_induction_on generalizing r with
    | _ n ih =>
      by_cases hs : r.xdfaWordState = .done
      · exact ⟨_, _, .fire presents_promptly (by simp [promptly, hs])⟩
      · have hwait : (promptly mem op r).outFire = false := by simp [promptly, hstep, hs]
        rcases ih _ (hn ▸ remaining_next hstep hs) _ rfl with ⟨r', v, hrest⟩
        exact ⟨r', v, .wait presents_promptly hwait hrest⟩

theorem runs_exists (mem : Mem) (ops : List Op) (r : Regs) : ∃ r', Runs mem ops r r' := by
  induction ops generalizing r with
  | nil => exact ⟨r, .nil r⟩
  | cons op ops ih =>
    obtain ⟨r₁, v, hex⟩ := executes_exists mem op r
    obtain ⟨r', hrest⟩ := ih r₁
    exact ⟨r', .exec hex hrest⟩

end NumericDfa
end Core
end Jyd
