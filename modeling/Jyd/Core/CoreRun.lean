import Jyd.Core.OperandUse
import Jyd.Core.AluOccupancy
import Jyd.Core.Multiplication
import Mathlib.Tactic.IntervalCases

/-!
# CoreRun — instructions on their way through EXU, in any environment

The core is run with arbitrary wires on its two memory ports.  An instruction that IDU
issues in cycle `s` sees the register values `issueRegs R s`: results that are still in
flight first, then the register file.  It enters EXU in the next cycle and stays there
until it completes; one with a late operand completes at once when its load hit the
cache, and two cycles later when it did not.
-/

namespace Jyd
namespace Core

open Hdl

namespace EXU

variable {r : Regs} {i : In}

/-- An instruction that neither accesses memory nor uses a controller of its own
completes with its result. -/
theorem inFire_eq_result (h : Occupied r i.valid i.dinst) (hv : i.valid = true)
    (hout : i.outReady = true) (hacc : isNumericDfa i.dinst = false ∧
      isListReverse i.dinst = false ∧ isXmsum i.dinst = false)
    (hmem : needMemReq i.dinst = false) : inFire r i = exuResultValid r i := by
  have hstep : isNumericDfaStep i.dinst = false := by
    rw [isNumericDfaStep, hacc.1, Bool.false_and]
  have hreq := memReqValid_of_idle (i := i) (h.listReverse_idle hacc.2.1) (h.xmsum_idle hacc.2.2)
    (h.numericDfa_idle hstep)
  simp [inFire, inReady, hstep, hacc, hmem, memReqFire, hreq, hv, hout]

theorem vacant_of_reset (h : CPUCore.EXUReset r) : Vacant r where
  listReverse := h.listReverseState
  xmsum := h.xmsumState
  numericDfa := h.xdfaWordState
  csr := h.csrPrepared
  captured := h.capturedLateLoadValid
  other := h.lateOtherOperandCaptured

theorem unitsIdle_of_reset (h : CPUCore.EXUReset r) : UnitsIdle r where
  bExtension := h.bExtensionState
  multiplier := h.multiplierState
  divider := h.dividerState

end EXU

namespace CPUCore

def machine : Machine In Regs where
  init := Reset
  next := fun i r => next r i

/-! ## What holds in every environment -/

/-- The execute stage works for the instruction it holds. -/
structure Settled (r : Regs) : Prop where
  decoded : r.exuPipe.valid = true → Decoded r.exuPipe.bits
  exu : ExuOk r
  units : UnitsOk r

namespace Settled

variable {r : Regs} {i : In}

theorem of_reset (h : Reset r) : Settled r where
  decoded := fun hv => absurd (h.exuPipe.symm.trans hv) (by decide)
  exu := (EXU.vacant_of_reset h.exu).occupied
  units := (EXU.unitsIdle_of_reset h.exu).occupied

theorem decoded_of_valid (h : Settled r) (hv : exuInValid r = true) : Decoded r.exuPipe.bits :=
  h.decoded (exuInValid_iff.mp hv).1

theorem step (h : Settled r) : Settled (next r i) where
  decoded := by
    intro hv
    cases hmove : r.exuPipe.allowIn (exuPipeReady r i) with
    | true =>
      refine ⟨iduIn r i, ?_⟩
      simp [next, Pipe.next, hmove]
    | false =>
      have hsame : (next r i).exuPipe = r.exuPipe := by simp [next, Pipe.next, hmove]
      rw [hsame] at hv ⊢
      exact h.decoded hv
  exu := exuOk_next h.exu h.decoded
  units := unitsOk_next h.units h.exu h.decoded_of_valid

end Settled

theorem settled (R : Run machine) (t : ℕ) : Settled (R.state t) :=
  R.invariant Settled (fun _ => Settled.of_reset) (fun _ _ => Settled.step) t

/-- LSU holds what left EXU in the cycle before, WBU what was in LSU. -/
theorem lsuPipe_succ (R : Run machine) (t : ℕ) :
    (R.state (t + 1)).lsuPipe =
      ⟨exuInFire (R.state t) (R.input t),
        EXU.outBits (R.state t).exu (exuIn (R.state t) (R.input t))⟩ := by
  rw [R.step t, ← exuOutValid_eq (settled R t).exu]
  exact lsuPipe_next _ _

theorem wbuPipe_succ (R : Run machine) (t : ℕ) :
    (R.state (t + 1)).wbuPipe =
      ⟨(R.state t).lsuPipe.valid,
        LSU.outBits (R.state t).lsuPipe (DCache.readData (R.state t).dcache)⟩ := by
  rw [R.step t]
  exact wbuPipe_next _ _

theorem lsu_empty_of_wait {R : Run machine} {t : ℕ}
    (hwait : exuInFire (R.state t) (R.input t) = false) :
    (R.state (t + 1)).lsuPipe.valid = false := by
  rw [lsuPipe_succ]
  exact hwait

/-- EXU inside a run of the core. -/
def exuRun (R : Run machine) : Run EXU.machine where
  input := fun t => exuIn (R.state t) (R.input t)
  state := fun t => (R.state t).exu
  init := R.init.exu
  step := by
    intro t
    rw [R.step t]
    rfl

/-! ## Issue -/

/-- IDU issues an instruction in cycle `s`, and no redirect overtakes it before EXU. -/
structure Issues (R : Run machine) (s : ℕ) : Prop where
  move : (R.state s).exuPipe.allowIn (exuPipeReady (R.state s) (R.input s)) = true
  valid : IDU.outValid (iduIn (R.state s) (R.input s)) = true
  arrives : exuInValid (R.state (s + 1)) = true

/-- The inputs under which IDU works in cycle `s`. -/
def issuing (R : Run machine) (s : ℕ) : IDU.In := iduIn (R.state s) (R.input s)

/-- The registers once LSU and WBU have written their results. -/
def behindExu (r : Regs) (i : In) : RegisterFile.Regs := fun x =>
  if lsuWrites r x then (ExtractFwdInfoFromLSU r.lsuPipe).data
  else RegisterFile.read r.gprs (gprWrite r i) x

/-- What a load that is in LSU in cycle `t` delivers: the cache word of a hit, and the
answer that WBU receives one cycle later otherwise. -/
def loadedValue (R : Run machine) (t : ℕ) : Word :=
  if (lateLoadLSU (R.state t)).dataValid then (lateLoadLSU (R.state t)).data
  else (lateLoadWBU (R.state (t + 1)) (R.input (t + 1))).data

/-- The register values an instruction issued in cycle `s` is to work with.  The result
of the instruction that leaves EXU in that cycle is in LSU in the next one. -/
def issueRegs (R : Run machine) (s : ℕ) : RegisterFile.Regs := fun x =>
  if completesInto (R.state s) (R.input s) x then
    if EXU.isTypLoad (R.state s).exuPipe.bits then loadedValue R (s + 1)
    else ResultLaneSelect.nonLoadData (R.state (s + 1)).lsuPipe.bits.exuWriteBack
  else behindExu (R.state s) (R.input s) x

theorem regsOk_behindExu (r : Regs) (i : In) : RegsOk r i (behindExu r i) where
  zero := by
    have hno : lsuWrites r 0 = false := by simp [lsuWrites]
    rw [behindExu, hno]
    rfl
  lsu := fun x hx _ => if_pos hx
  rest := fun x hx => if_neg (Bool.eq_false_iff.mp hx)

/-- Whatever LSU is about to write was completed in EXU one cycle before. -/
theorem completesInto_of_lsuWrites {r : Regs} {i : In} (h : Settled r) {x : BitVec 5}
    (hx : lsuWrites (next r i) x = true) : completesInto r i x = true := by
  rcases lsuWrites_iff.mp hx with ⟨hany, hv, hrd, h0⟩
  rw [lsuPipe_next] at hany hv hrd
  have hfire : exuInFire r i = true := (exuOutValid_eq h.exu).symm.trans hv
  have hdec := h.decoded_of_valid (exuInValid_of_inFire hfire)
  have hen : r.exuPipe.bits.info.rdWrEn = true :=
    (anyValid_writeBackInfo (e := r.exu) (j := exuIn r i) hdec).symm.trans hany
  have hrd' : r.exuPipe.bits.info.rd = x := hrd
  simp [completesInto, hfire, hen, hrd', h0]

section Issue

variable {R : Run machine} {s : ℕ}

theorem decoded_valid (R : Run machine) (t : ℕ) :
    exuInValid (R.state t) = true → Decoded (R.state t).exuPipe.bits :=
  (settled R t).decoded_of_valid

theorem Issues.vacant (h : Issues R s) : EXU.Vacant (R.state (s + 1)).exu := by
  rw [R.step s]
  exact vacant_of_move (settled R s).exu (decoded_valid R s) h.move

/-- The multi-cycle units are free for the instruction that enters EXU. -/
theorem Issues.unitsIdle (h : Issues R s) : EXU.UnitsIdle (R.state (s + 1)).exu := by
  rw [R.step s]
  cases hv : exuInValid (R.state s) with
  | true =>
    exact unitsIdle_next (settled R s).units (settled R s).exu (decoded_valid R s)
      (inFire_of_move hv h.move)
  | false =>
    have hunused : (exuInValid (R.state s) && EXU.usesAlu (R.state s).exuPipe.bits) = false := by
      simp [hv]
    have hidle := (settled R s).units.idle_of_unused hunused
    exact hidle.next_of_unused (i := exuIn (R.state s) (R.input s))
      (EXU.aluInValid_eq.trans hunused)

theorem Issues.issued (h : Issues R s) :
    Issued (R.state (s + 1)) (issueRegs R s) (issuing R s) := by
  have hbelow : ∀ x, completesInto (R.state s) (R.input s) x = false →
      issueRegs R s x = behindExu (R.state s) (R.input s) x :=
    fun x hx => if_neg (Bool.eq_false_iff.mp hx)
  rw [R.step s]
  exact issued_of_move (settled R s).exu (decoded_valid R s) h.move (regsOk_behindExu _ _) hbelow
    h.valid

/-- The instruction is `d`, and EXU holds it in cycle `t`. -/
def Holds (R : Run machine) (d : DecodedInst) (t : ℕ) : Prop :=
  exuInValid (R.state t) = true ∧ (R.state t).exuPipe.bits = d

theorem Issues.holds (h : Issues R s) : Holds R (IDU.outBits (issuing R s)) (s + 1) :=
  ⟨h.arrives, h.issued.bits⟩

/-- A late operand is a load that is in LSU when its consumer enters EXU. -/
theorem Issues.late (h : Issues R s)
    (hl : EXU.hasLateLoadOperand (IDU.outBits (issuing R s)) = true) :
    (lateLoadLSU (R.state (s + 1))).valid = true := by
  have hparts : (R.state (s + 1)).lsuPipe.valid = true ∧
      (R.state (s + 1)).lsuPipe.bits.isLoad = true ∧
      supportedLoadWidth (R.state (s + 1)).lsuPipe.bits.func3t = true := by
    have hsome : (IDU.byPass1 (issuing R s)).lateLoadSelect = true ∨
        (IDU.byPass2 (issuing R s)).lateLoadSelect = true := (Bool.or_eq_true _ _).mp hl
    rw [R.step s]
    rcases hsome with hl | hl
    all_goals
      rcases late_of_mux (settled R s).exu (decoded_valid R s) h.move hl with
        ⟨_, hwrites, hload, hwidth⟩
      exact ⟨(lsuWrites_iff.mp hwrites).2.1, hload, hwidth⟩
  simp [lateLoadLSU, hparts]

/-! ## Completion -/

/-- EXU works on `d` from cycle `t` on and completes it in cycle `u`. -/
structure Executes (R : Run machine) (d : DecodedInst) (t u : ℕ) : Prop where
  le : t ≤ u
  holds : ∀ v, t ≤ v → v ≤ u → Holds R d v
  waits : ∀ v, t ≤ v → v < u → exuInFire (R.state v) (R.input v) = false
  completes : exuInFire (R.state u) (R.input u) = true

theorem Holds.next {d : DecodedInst} {t : ℕ} (h : Holds R d t)
    (hwait : exuInFire (R.state t) (R.input t) = false) : Holds R d (t + 1) := by
  have hstays := exu_stays (i := R.input t) (settled R t).exu h.1 hwait
  rw [Holds, R.step t]
  exact ⟨hstays.1, hstays.2.trans h.2⟩

/-- An instruction that waits for `n` cycles and completes in the next one. -/
theorem executes_of_waits {d : DecodedInst} {t n : ℕ} (h : Holds R d t)
    (hwait : ∀ k < n, Holds R d (t + k) → exuInFire (R.state (t + k)) (R.input (t + k)) = false)
    (hdone : Holds R d (t + n) → exuInFire (R.state (t + n)) (R.input (t + n)) = true) :
    Executes R d t (t + n) := by
  have hholds : ∀ k ≤ n, Holds R d (t + k) := by
    intro k
    induction k with
    | zero => exact fun _ => h
    | succ k ih =>
      intro hk
      have hbefore := ih (by omega)
      exact hbefore.next (hwait k (by omega) hbefore)
  refine ⟨Nat.le_add_right _ _, ?_, ?_, hdone (hholds n le_rfl)⟩
  · intro v hv hle
    obtain ⟨k, rfl⟩ := Nat.exists_eq_add_of_le hv
    exact hholds k (by omega)
  · intro v hv hlt
    obtain ⟨k, rfl⟩ := Nat.exists_eq_add_of_le hv
    exact hwait k (by omega) (hholds k (by omega))

theorem Holds.valid {d : DecodedInst} {t : ℕ} (h : Holds R d t) :
    (exuIn (R.state t) (R.input t)).valid = true := h.1

theorem Holds.dinst {d : DecodedInst} {t : ℕ} (h : Holds R d t) :
    (exuIn (R.state t) (R.input t)).dinst = d := h.2

/-- Completion of an instruction without memory access and without a controller of its own. -/
theorem Holds.inFire_eq {d : DecodedInst} {t : ℕ} (h : Holds R d t)
    (hacc : EXU.isNumericDfa d = false ∧ EXU.isListReverse d = false ∧ EXU.isXmsum d = false)
    (hmem : EXU.needMemReq d = false) :
    exuInFire (R.state t) (R.input t) =
      EXU.exuResultValid (R.state t).exu (exuIn (R.state t) (R.input t)) :=
  EXU.inFire_eq_result (settled R t).exu h.valid (exuOutReady_eq _) (h.dinst.symm ▸ hacc)
    (h.dinst.symm ▸ hmem)

/-! ## Operands of the instruction that completes -/

theorem issueRegs_of_lsuWrites {x : BitVec 5} (hx : lsuWrites (R.state (s + 1)) x = true) :
    issueRegs R s x =
      if EXU.isTypLoad (R.state s).exuPipe.bits then loadedValue R (s + 1)
      else ResultLaneSelect.nonLoadData (R.state (s + 1)).lsuPipe.bits.exuWriteBack := by
  have hc : completesInto (R.state s) (R.input s) x = true := by
    rw [R.step s] at hx
    exact completesInto_of_lsuWrites (settled R s) hx
  exact if_pos hc

theorem delivers_first {b : IDU.ByPass} {rs : BitVec 5}
    (h : Operand (R.state (s + 1)) b rs (issueRegs R s rs)) :
    Delivers (R.state (s + 1)) (R.input (s + 1)) b (issueRegs R s rs) where
  plain := h.plain
  adjacent := by
    intro ha
    rcases h.adjacent ha with ⟨hwrites, hfast⟩
    have hlsu : (R.state (s + 1)).lsuPipe.bits =
        EXU.outBits (R.state s).exu (exuIn (R.state s) (R.input s)) :=
      congrArg Pipe.bits (lsuPipe_succ R s)
    rw [hlsu] at hfast
    -- a fast result is not that of a load
    have hload : EXU.isTypLoad (R.state s).exuPipe.bits = false := by
      refine Bool.eq_false_iff.mpr fun hl => ?_
      have hfire : exuInFire (R.state s) (R.input s) = true := by
        have hv := (lsuWrites_iff.mp hwrites).2.1
        rwa [lsuPipe_succ] at hv
      have hkind := (resultKind_load (decoded_valid R s (exuInValid_of_inFire hfire))).mpr hl
      have hfast' : (EXU.writeBackInfo (R.state s).exu
          (exuIn (R.state s) (R.input s))).fastResult.valid = true := hfast
      simp [EXU.writeBackInfo, EXU.resultIsFast, exuIn, hkind] at hfast'
    rw [issueRegs_of_lsuWrites hwrites, hload, if_neg (by decide), hlsu]
    have hprev : (exuIn (R.state (s + 1)) (R.input (s + 1))).previousStageFwd.data =
        (R.state (s + 1)).lsuPipe.bits.exuWriteBack.fastResult.data := rfl
    rw [hprev, hlsu]
    exact (nonLoadData_of_fast hfast).symm
  hit := by
    intro hl hv
    have hparts : (R.state (s + 1)).lsuPipe.valid = true := by
      simp only [lateLoadLSU, Bool.and_eq_true] at hv
      exact hv.1.1.1.1
    cases h.late hl with
    | lsu _ writes isLoad _ =>
      have hload : EXU.isTypLoad (R.state s).exuPipe.bits = true := by
        rwa [lsuPipe_succ] at isLoad
      rw [issueRegs_of_lsuWrites writes, hload, if_pos rfl, loadedValue, if_pos hv]
    | wbu _ empty _ _ _ _ _ => exact absurd (empty.symm.trans hparts) (by decide)
    | captured _ empty _ => exact absurd (empty.symm.trans hparts) (by decide)
  captured := fun hl => (h.late hl).captured_value

/-- In its first cycle an instruction finds its operands. -/
theorem Issues.delivered_first (h : Issues R s) :
    Delivered (R.state (s + 1)) (R.input (s + 1)) (issueRegs R s) (issuing R s) where
  bits := h.issued.bits
  exclusive := h.issued.exclusive
  rs1 := fun hloop hneed => delivers_first (h.issued.rs1 hloop hneed)
  rs2 := delivers_first h.issued.rs2
  other := h.issued.other

/-! ## Late operands -/

section Late

variable (hl : EXU.hasLateLoadOperand (IDU.outBits (issuing R s)) = true)

include hl

/-- A consumer of a late load completes in the cycle in which its late operands are ready. -/
theorem late_inFire_eq {t : ℕ} (ht : Holds R (IDU.outBits (issuing R s)) t) :
    exuInFire (R.state t) (R.input t) =
      EXU.lateDataReady (R.state t).exu (exuIn (R.state t) (R.input t)) := by
  have hd : Decoded (exuIn (R.state t) (R.input t)).dinst := ⟨_, ht.dinst⟩
  have hl' : EXU.hasLateLoadOperand (exuIn (R.state t) (R.input t)).dinst = true :=
    ht.dinst.symm ▸ hl
  have hacc := EXU.not_accelerator_of_late hd hl'
  have hmem := EXU.not_needMemReq_of_late hd hl'
  rw [ht.dinst] at hacc hmem
  rw [ht.inFire_eq hacc hmem, EXU.exuResultValid_of_late hd hl']

theorem some_late {t : ℕ} (ht : Holds R (IDU.outBits (issuing R s)) t) :
    ((exuIn (R.state t) (R.input t)).dinst.info.lateLoadRs1 ||
      (exuIn (R.state t) (R.input t)).dinst.info.lateLoadRs2) = true := by
  rw [ht.dinst]
  exact hl

variable (h : Issues R s)

include h

/-- Readiness while the load is in LSU. -/
theorem late_ready_first (ht : Holds R (IDU.outBits (issuing R s)) (s + 1)) :
    EXU.lateDataReady (R.state (s + 1)).exu (exuIn (R.state (s + 1)) (R.input (s + 1))) =
      (lateLoadLSU (R.state (s + 1))).dataValid := by
  have hvalid : (exuIn (R.state (s + 1)) (R.input (s + 1))).lateLoadLSU.valid = true := h.late hl
  have hsome := some_late hl ht
  show _ = (exuIn (R.state (s + 1)) (R.input (s + 1))).lateLoadLSU.dataValid
  rw [EXU.lateDataReady, EXU.resolveLateLoadReady, EXU.resolveLateLoadReady]
  cases h1 : (exuIn (R.state (s + 1)) (R.input (s + 1))).dinst.info.lateLoadRs1 <;>
    cases h2 : (exuIn (R.state (s + 1)) (R.input (s + 1))).dinst.info.lateLoadRs2 <;>
      simp_all

/-- A hit completes the consumer at once. -/
theorem late_hit (hhit : (lateLoadLSU (R.state (s + 1))).dataValid = true) :
    Executes R (IDU.outBits (issuing R s)) (s + 1) (s + 1) := by
  refine executes_of_waits (n := 0) h.holds (fun k hk => absurd hk (Nat.not_lt_zero k)) ?_
  intro ht
  exact (late_inFire_eq hl ht).trans ((late_ready_first hl h ht).trans hhit)

section Miss

variable (hmiss : (lateLoadLSU (R.state (s + 1))).dataValid = false)

include hmiss

theorem miss_waits_first : exuInFire (R.state (s + 1)) (R.input (s + 1)) = false :=
  (late_inFire_eq hl h.holds).trans ((late_ready_first hl h h.holds).trans hmiss)

/-- One cycle later the load is in WBU, with a bubble behind it. -/
theorem miss_second :
    Holds R (IDU.outBits (issuing R s)) (s + 2) ∧ (R.state (s + 2)).lsuPipe.valid = false ∧
      (R.state (s + 2)).exu.capturedLateLoadValid = false := by
  have hwait := miss_waits_first hl h hmiss
  refine ⟨h.holds.next hwait, lsu_empty_of_wait hwait, ?_⟩
  · have hvalid : (exuIn (R.state (s + 1)) (R.input (s + 1))).lateLoadLSU.valid = true := h.late hl
    have hwait' : EXU.inFire (R.state (s + 1)).exu (exuIn (R.state (s + 1)) (R.input (s + 1))) =
        false := hwait
    rw [R.step (s + 1)]
    show (EXU.next _ _).capturedLateLoadValid = false
    simp [EXU.next, h.holds.valid, hwait', EXU.captureLateLoadWBU, hvalid, h.vacant.captured]

theorem miss_waits_second : exuInFire (R.state (s + 2)) (R.input (s + 2)) = false := by
  rcases miss_second hl h hmiss with ⟨ht, hempty, hfresh⟩
  have hlsu : (exuIn (R.state (s + 2)) (R.input (s + 2))).lateLoadLSU.valid = false := by
    simp [exuIn, lateLoadLSU, hempty]
  have hsome := some_late hl ht
  rw [late_inFire_eq hl ht, EXU.lateDataReady, EXU.resolveLateLoadReady,
    EXU.resolveLateLoadReady]
  cases h1 : (exuIn (R.state (s + 2)) (R.input (s + 2))).dinst.info.lateLoadRs1 <;>
    cases h2 : (exuIn (R.state (s + 2)) (R.input (s + 2))).dinst.info.lateLoadRs2 <;>
      simp_all

omit hl h in
/-- What WBU answers to the consumer is the value of the missed load. -/
theorem miss_wbuDelivers : WbuDelivers (R.state (s + 2)) (R.input (s + 2)) (issueRegs R s) := by
  intro rs _ hv hload hrd h0
  rw [wbuPipe_succ R (s + 1)] at hv hload hrd
  have hlsu := lsuPipe_succ R s
  have htyp : EXU.isTypLoad (R.state s).exuPipe.bits = true := by
    rw [hlsu] at hload
    exact hload
  have hwrites : lsuWrites (R.state (s + 1)) rs = true := by
    refine lsuWrites_iff.mpr ⟨?_, hv, hrd, h0⟩
    have hdec : Decoded (R.state s).exuPipe.bits := by
      rw [hlsu] at hv
      exact decoded_valid R s (exuInValid_of_inFire hv)
    rw [hlsu]
    have hlane := (loadResult_valid (e := (R.state s).exu)
      (j := exuIn (R.state s) (R.input s)) hdec).trans htyp
    show ResultLaneSelect.anyValid (EXU.writeBackInfo _ _) = true
    simp [ResultLaneSelect.anyValid, ResultLaneSelect.validVec, hlane]
  rw [issueRegs_of_lsuWrites hwrites, htyp, if_pos rfl, loadedValue, hmiss, if_neg (by decide)]

/-- With the answer captured the consumer completes in the third cycle. -/
theorem late_miss :
    Executes R (IDU.outBits (issuing R s)) (s + 1) (s + 3) ∧
      (R.state (s + 3)).exu.capturedLateLoadValid = true ∧
      (R.state (s + 3)).lsuPipe.valid = false ∧
      Issued (R.state (s + 3)) (issueRegs R s) (issuing R s) := by
  have hwait1 := miss_waits_first hl h hmiss
  have hwait2 := miss_waits_second hl h hmiss
  rcases miss_second hl h hmiss with ⟨ht, hempty, hfresh⟩
  have hadj : ((IDU.byPass1 (issuing R s)).adjacentFastSelect ||
      (IDU.byPass2 (issuing R s)).adjacentFastSelect) = false := by
    have hno := IDU.not_adjacent_of_late h.issued.exclusive hl
    simp [hno]
  -- while the load is in LSU nothing has to be delivered by WBU
  have hfirst : WbuDelivers (R.state (s + 1)) (R.input (s + 1)) (issueRegs R s) := by
    intro rs hno
    have hyes := h.late hl
    simp [lateLoadLSU, hno] at hyes
  -- the operands stay those of the issue while the load moves on to WBU
  have hissued2 : Issued (R.state (s + 2)) (issueRegs R s) (issuing R s) := by
    rw [R.step (s + 1)]
    exact issued_of_stay (settled R (s + 1)).exu hfirst h.arrives hwait1 hadj h.issued
  have hissued3 : Issued (R.state (s + 3)) (issueRegs R s) (issuing R s) := by
    rw [R.step (s + 2)]
    exact issued_of_stay (settled R (s + 2)).exu (miss_wbuDelivers hmiss) ht.1 hwait2 hadj
      hissued2
  have hempty3 : (R.state (s + 3)).lsuPipe.valid = false := lsu_empty_of_wait hwait2
  -- in that cycle the answer of WBU is captured
  have hcap : (R.state (s + 3)).exu.capturedLateLoadValid = true := by
    have hvalid : (exuIn (R.state (s + 2)) (R.input (s + 2))).lateLoadWBU.valid = true ∧
        (exuIn (R.state (s + 2)) (R.input (s + 2))).lateLoadWBU.dataValid = true := by
      have hlsu := h.late hl
      simp only [exuIn, lateLoadWBU, wbuPipe_succ R (s + 1), and_self]
      exact hlsu
    have hlsu : (exuIn (R.state (s + 2)) (R.input (s + 2))).lateLoadLSU.valid = false := by
      simp [exuIn, lateLoadLSU, hempty]
    have hwait' : EXU.inFire (R.state (s + 2)).exu (exuIn (R.state (s + 2)) (R.input (s + 2))) =
        false := hwait2
    have hsome := some_late hl ht
    rw [R.step (s + 2)]
    show (EXU.next _ _).capturedLateLoadValid = true
    simp [EXU.next, ht.valid, hwait', EXU.captureLateLoadWBU, hlsu, hvalid, hsome, hfresh]
  refine ⟨?_, hcap, hempty3, hissued3⟩
  refine executes_of_waits (n := 2) h.holds ?_ ?_
  · intro k hk _
    interval_cases k
    · exact hwait1
    · exact hwait2
  · intro ht3
    exact inFire_of_captured ht3.2 ht3.1 (by rw [ht3.2]; exact hl) hcap hempty3

end Miss

end Late

/-! ## Instructions of a single cycle -/

/-- The cycle in which an instruction completes that waits for late operands only. -/
def completion (R : Run machine) (s : ℕ) : ℕ :=
  if EXU.hasLateLoadOperand (IDU.outBits (issuing R s)) &&
      !(lateLoadLSU (R.state (s + 1))).dataValid then s + 3
  else s + 1

/-- After a miss the only place left for a late operand is the capture register. -/
theorem delivers_captured {r : Regs} {i : In} {b : IDU.ByPass} {rs : BitVec 5} {v : Word}
    (h : Operand r b rs v) (hempty : r.lsuPipe.valid = false) : Delivers r i b v where
  plain := h.plain
  adjacent := fun ha =>
    absurd (hempty.symm.trans (lsuWrites_iff.mp (h.adjacent ha).1).2.1) (by decide)
  hit := by
    intro _ hv
    simp [lateLoadLSU, hempty] at hv
  captured := fun hl => (h.late hl).captured_value

/-- An instruction that waits for nothing but late operands completes with the register
values it was issued with. -/
theorem Issues.executes (h : Issues R s)
    (hnow : EXU.hasLateLoadOperand (IDU.outBits (issuing R s)) = false →
      exuInFire (R.state (s + 1)) (R.input (s + 1)) = true) :
    Executes R (IDU.outBits (issuing R s)) (s + 1) (completion R s) ∧
      Delivered (R.state (completion R s)) (R.input (completion R s)) (issueRegs R s)
        (issuing R s) := by
  cases hl : EXU.hasLateLoadOperand (IDU.outBits (issuing R s)) with
  | false =>
    have hu : completion R s = s + 1 := by simp [completion, hl]
    rw [hu]
    refine ⟨?_, h.delivered_first⟩
    exact executes_of_waits (n := 0) h.holds (fun k hk => absurd hk (Nat.not_lt_zero k))
      (fun _ => hnow hl)
  | true =>
    cases hhit : (lateLoadLSU (R.state (s + 1))).dataValid with
    | true =>
      have hu : completion R s = s + 1 := by simp [completion, hl, hhit]
      rw [hu]
      exact ⟨late_hit hl h hhit, h.delivered_first⟩
    -- a miss costs two cycles
    | false =>
      have hu : completion R s = s + 3 := by simp [completion, hl, hhit]
      rw [hu]
      rcases late_miss hl h hhit with ⟨hexec, _, hempty, hissued⟩
      exact ⟨hexec, hissued.bits, hissued.exclusive,
        fun hloop hneed => delivers_captured (hissued.rs1 hloop hneed) hempty,
        delivers_captured hissued.rs2 hempty, hissued.other⟩

end Issue

end CPUCore
end Core
end Jyd
