import Jyd.Core.ArithmeticDecode
import Jyd.Core.CoreRun
import Jyd.Core.Division

/-!
# Execution — every arithmetic instruction ends with its result

Exactly one execution unit takes an OP or OP-IMM instruction in its first cycle in EXU.
The fast lane and the special cluster answer from the operands of the payload; the other
three units are serial, and EXU waits for them.
-/

namespace Jyd
namespace Core

open Hdl Isa

namespace EXU

/-- The unit starts on the instruction in EXU in this cycle.  The fast lane includes the two
fixed operations on a late load. -/
def accepts (r : Regs) (i : In) : ExecUnit → Bool
  | .fastInteger => i.valid && isTypArithmetic i.dinst && resultIsFast i.dinst
  | .specialCluster =>
    aluInValid i && !i.dinst.info.bExtValid && !SpecialExecutionCluster.isMExt (specialIn i)
  | .bExtension => aluInValid i && i.dinst.info.bExtValid && BExtensionUnit.inReady r.alu.bExtension
  | .multiplier =>
    aluInValid i && SpecialExecutionCluster.isMulOp (specialIn i) &&
      Multiplier.inReady r.alu.multiplier
  | .divider =>
    aluInValid i && SpecialExecutionCluster.isDivOp (specialIn i) &&
      Divider.inReady r.alu.divider

/-! ## What EXU reads from the payload -/

/-- The signals by which EXU and the cluster select a unit. -/
structure Routed (d : DecodedInst) (u : ExecUnit) : Prop where
  typ : isTypArithmetic d = true
  writes : d.info.rdWrEn = true
  fast : resultIsFast d = decide (u = .fastInteger)
  long : resultIsLong d = !decide (u = .fastInteger)
  bExtValid : d.info.bExtValid = decide (u = .bExtension)
  mul : isMulOp d = decide (u = .multiplier)
  div : isDivOp d = decide (u = .divider)
  mExt : (!isFmtI d && func7t d == 1#7) = (decide (u = .multiplier) || decide (u = .divider))

theorem routed {j : IDU.In} {e : Encoding} (h : IDU.Fields (IDU.inst j) e) {u : ExecUnit}
    (hu : IDU.chooses (IDU.inst j) u = true) : Routed (IDU.outBits j) u := by
  have htyp : (IDU.metaInfo (IDU.inst j)).typ = .arithmetic := by
    simpa [IDU.isTyp] using h.typ
  have hkind := IDU.resultKind_of_chooses h hu
  have hkind' : (IDU.outBits j).info.resultKind = IDU.resultKind (IDU.inst j) := rfl
  have hm : (!isFmtI (IDU.outBits j) && func7t (IDU.outBits j) == 1#7) =
      IDU.isMExtArithmetic (IDU.inst j) := rfl
  have hf3 : func3t (IDU.outBits j) = IDU.func3 (IDU.inst j) := rfl
  have hb : (IDU.outBits j).info.bExtValid =
      (!IDU.isMExtArithmetic (IDU.inst j) && IDU.isIterativeB (IDU.inst j)) := by
    show (IDU.isTyp (IDU.inst j) .arithmetic && _ && _) = _
    rw [h.typ, Bool.true_and]
  -- the fast encodings are apart from the long ones
  have hlong : u = .fastInteger → IDU.isMExtArithmetic (IDU.inst j) = false ∧
      IDU.isIterativeB (IDU.inst j) = false := by
    intro hfast
    rw [hfast] at hu
    have hno := IDU.not_long_of_fast hu
    simp only [IDU.isLongArithmetic, h.typ, Bool.true_and, Bool.or_eq_false_iff] at hno
    exact hno.1
  refine ⟨h.typ, ?_, ?_, ?_, ?_, ?_, ?_, ?_⟩
  · show IDU.rdWrEn (IDU.inst j) = true
    simp [IDU.rdWrEn, IDU.isTyp, htyp]
  · rw [resultIsFast, hkind', hkind]
    cases u <;> rfl
  · rw [resultIsLong, hkind', hkind]
    cases u <;> rfl
  · rw [hb]
    cases u <;> simp_all [IDU.chooses]
  · rw [isMulOp, hm, hf3]
    cases u <;> simp_all [IDU.chooses]
  · rw [isDivOp, hm, hf3]
    cases u <;> simp_all [IDU.chooses]
  · rw [hm]
    cases u <;> simp_all [IDU.chooses]

variable {r : Regs} {i : In} {u : ExecUnit}

theorem Routed.usesAlu (h : Routed i.dinst u) : usesAlu i.dinst = !decide (u = .fastInteger) := by
  have hacc : resultIsLong i.dinst = false → resultIsAccelerator i.dinst = false := by
    intro hlong
    have hfast : resultIsFast i.dinst = true := by
      rw [h.fast]
      simpa [h.long] using hlong
    have hkind : i.dinst.info.resultKind = .fastInt := by simpa [resultIsFast] using hfast
    simp [resultIsAccelerator, hkind]
  rw [EXU.usesAlu, h.typ, Bool.true_and, ← h.long]
  cases hlong : resultIsLong i.dinst with
  | true => rfl
  | false => simp [hacc hlong]

/-- The special cluster decodes the payload once more, and agrees. -/
theorem Routed.special (h : Routed i.dinst u) :
    SpecialExecutionCluster.isMulOp (specialIn i) = decide (u = .multiplier) ∧
      SpecialExecutionCluster.isDivOp (specialIn i) = decide (u = .divider) ∧
      SpecialExecutionCluster.isMExt (specialIn i) =
        (decide (u = .multiplier) || decide (u = .divider)) ∧
      (specialIn i).bExtValid = decide (u = .bExtension) :=
  ⟨h.mul, h.div, h.mExt, h.bExtValid⟩

/-- Exactly the chosen unit starts. -/
theorem accepts_eq (h : Routed i.dinst u) (hv : i.valid = true) (hidle : UnitsIdle r)
    (v : ExecUnit) : accepts r i v = decide (v = u) := by
  have hin : aluInValid i = !decide (u = .fastInteger) := by
    rw [aluInValid_eq, hv, Bool.true_and, h.usesAlu]
  rcases h.special with ⟨hmul, hdiv, hm, _⟩
  -- every row of the table of units against selectors
  cases v <;>
    simp only [accepts, hv, h.typ, h.fast, hin, h.bExtValid, hm, hmul, hdiv, BExtensionUnit.inReady,
      Multiplier.inReady, Divider.inReady, hidle.bExtension, hidle.multiplier, hidle.divider] <;>
    cases u <;> rfl

/-! ## The cluster -/

/-- The cluster waits for the unit it sent the request to. -/
def unitValid (r : Regs) (i : In) : ExecUnit → Bool
  | .bExtension => BExtensionUnit.outValid r.alu.bExtension
  | .multiplier => Multiplier.outValid r.alu.multiplier
  | .divider => Divider.outValid r.alu.divider
  | _ => aluInValid i

def unitBits (r : Regs) (i : In) : ExecUnit → Word
  | .bExtension => BExtensionUnit.outBits r.alu.bExtension
  | .multiplier => Multiplier.outBits r.alu.multiplier
  | .divider => Divider.outBits r.alu.divider
  | _ => SpecialExecutionCluster.aluResult (specialIn i)

theorem Routed.not_sys (h : Routed i.dinst u) : isTypSys i.dinst = false := by
  have htyp : i.dinst.info.typ = .arithmetic := by simpa [isTypArithmetic] using h.typ
  simp [isTypSys, htyp]

theorem aluOutValid_eq (h : Routed i.dinst u) : aluOutValid r i = unitValid r i u := by
  rcases h.special with ⟨hmul, hdiv, hm, hb⟩
  rw [aluOutValid, SpecialExecutionCluster.outValid, hb, hmul, hdiv, hm]
  cases u <;> simp [mux1HBool, unitValid]

theorem specialExecutionOut_eq (h : Routed i.dinst u) :
    specialExecutionOut r i = unitBits r i u := by
  rcases h.special with ⟨hmul, hdiv, _, hb⟩
  rw [specialExecutionOut, SpecialExecutionCluster.outBits, hb, hmul, hdiv]
  cases u <;> simp [mux1H, unitBits]

def dividerDrive (i : In) : Divider.In where
  bits := SpecialExecutionCluster.dividerIn (specialIn i)
  inValid := aluInValid i && SpecialExecutionCluster.isDivOp (specialIn i)
  outReady := i.outReady

def dividerPorts : UnitPorts In Regs DividerInput Word :=
  Divider.ports.comap dividerDrive (fun r => r.alu.divider)

theorem divider_serial :
    Serial machine dividerPorts (fun _ => 33) Divider.Answers
      (fun q k r => Divider.Working q k r.alu.divider) :=
  Divider.serial.comap dividerDrive (fun r : Regs => r.alu.divider)
    (fun _ hreset => CPUCore.EXUReset.dividerState hreset) (fun _ _ => rfl)

def bExtensionDrive (i : In) : BExtensionUnit.In where
  bits := SpecialExecutionCluster.bExtensionIn (specialIn i)
  inValid := aluInValid i && i.dinst.info.bExtValid
  outReady := i.outReady

def bExtensionPorts : UnitPorts In Regs BExtensionInput Word :=
  BExtensionUnit.ports.comap bExtensionDrive (fun r => r.alu.bExtension)

theorem bExtension_serial :
    Serial machine bExtensionPorts BExtensionUnit.latency BExtensionUnit.Answers
      (fun q k r => BExtensionUnit.Working q k r.alu.bExtension) :=
  BExtensionUnit.serial.comap bExtensionDrive (fun r : Regs => r.alu.bExtension)
    (fun _ hreset => CPUCore.EXUReset.bExtensionState hreset) (fun _ _ => rfl)

/-! ## Completion and result -/

section Result

variable {j : IDU.In} (hj : i.dinst = IDU.outBits j) {e : Encoding}
  (hfields : IDU.Fields (IDU.inst j) e) (h : Routed i.dinst u)

include hj hfields

theorem not_accelerator_of_fields :
    isNumericDfa i.dinst = false ∧ isListReverse i.dinst = false ∧ isXmsum i.dinst = false :=
  not_accelerator_of_code hj hfields.not_accelerator

include h

/-- Only the two fixed operations of the fast lane wait for a late load. -/
theorem not_late_of_long (hu : u ≠ .fastInteger) : hasLateLoadOperand i.dinst = false := by
  refine Bool.eq_false_iff.mpr fun hl => ?_
  have hfast : resultIsFast i.dinst = false := by
    rw [h.fast]
    simpa using hu
  rcases late_class hj hl with hc | hc
  · have hkind := IDU.resultKind_of_lateBit hc
    rw [hj] at hfast
    simp [resultIsFast, IDU.outBits, IDU.info, hkind] at hfast
  · have htyp : (IDU.metaInfo (IDU.inst j)).typ = .arithmetic := by
      simpa [IDU.isTyp] using hfields.typ
    simp [IDU.isEqualityBranch, IDU.isTyp, htyp] at hc

theorem exuResultValid_of_long (hu : u ≠ .fastInteger) :
    exuResultValid r i = aluOutValid r i := by
  rcases not_accelerator_of_fields hj hfields with ⟨hn, hlr, hx⟩
  have hfast : resultIsFast i.dinst = false := by
    rw [h.fast]
    simpa using hu
  have hsys := h.not_sys
  simp [exuResultValid, isNumericDfaStep, hn, hlr, hx, hsys, h.typ, hfast,
    not_late_of_long hj hfields h hu]

theorem exuResultValid_of_fast (hu : u = .fastInteger) (hv : i.valid = true)
    (hl : hasLateLoadOperand i.dinst = false) : exuResultValid r i = true := by
  rcases not_accelerator_of_fields hj hfields with ⟨hn, hlr, hx⟩
  have hfast : resultIsFast i.dinst = true := by
    rw [h.fast, hu]
    rfl
  have hsys := h.not_sys
  simp [exuResultValid, isNumericDfaStep, hn, hlr, hx, hsys, h.typ, hfast, hl, fastIntegerValid, hv]

omit hj hfields in
theorem nonLoadData_of_long (hu : u ≠ .fastInteger) :
    ResultLaneSelect.nonLoadData (writeBackInfo r i) = specialExecutionOut r i := by
  have hlong : i.dinst.info.resultKind = .longArithmetic := by
    have hk : resultIsLong i.dinst = true := by
      rw [h.long]
      simpa using hu
    simpa [resultIsLong] using hk
  simp [ResultLaneSelect.nonLoadData, mux1H, writeBackInfo, resultIsFast, resultIsLong,
    resultIsAccelerator, hlong, h.writes]

end Result

end EXU

namespace CPUCore

variable {R : Run machine} {s : ℕ}

/-- EXU waits for a serial unit that has accepted its instruction. -/
theorem executes_of_serial {Req : Type} {p : UnitPorts EXU.In EXU.Regs Req Word}
    {latency : Req → ℕ} {Answers : Req → Word → Prop} {Working : Req → ℕ → EXU.Regs → Prop}
    (S : Serial EXU.machine p latency Answers Working) {d : DecodedInst} {t : ℕ} {q : Req}
    (h : Holds R d t)
    (haccepted : p.accepted (exuIn (R.state t) (R.input t)) (R.state t).exu = some q)
    (hfire : ∀ v, Holds R d v → exuInFire (R.state v) (R.input v) = p.outValid (R.state v).exu) :
    Executes R d t (t + (latency q + 1)) ∧
      Answers q (p.outBits (R.state (t + (latency q + 1))).exu) := by
  have hoffered : ∀ k, 0 < k → k ≤ latency q + 1 →
      (p.outValid (R.state (t + k)).exu = true ↔ t + 1 + latency q ≤ t + k) ∧
        (t + 1 + latency q ≤ t + k → Answers q (p.outBits (R.state (t + k)).exu)) := by
    intro k hpos hk
    refine S.offered (exuRun R) haccepted (by omega) ?_
    intro v hv hlt
    omega
  refine ⟨executes_of_waits h ?_ ?_, (hoffered _ (by omega) le_rfl).2 (by omega)⟩
  -- until then the unit has nothing to offer
  · intro k hk hv
    rw [hfire _ hv]
    cases k with
    | zero => exact S.quiet (UnitPorts.accepted_eq_some.mp haccepted).1.2
    | succ k =>
      refine Bool.eq_false_iff.mpr fun hval => ?_
      have hle := (hoffered (k + 1) (by omega) (by omega)).1.mp hval
      omega
  · intro hv
    rw [hfire _ hv]
    exact (hoffered _ (by omega) le_rfl).1.mpr (by omega)

section Encoded

variable {op : ArithOp} (hfields : IDU.Fields (IDU.inst (issuing R s)) op.encoding)

include hfields

theorem Holds.routed {t : ℕ} (ht : Holds R (IDU.outBits (issuing R s)) t) :
    EXU.Routed (exuIn (R.state t) (R.input t)).dinst (unitOf op) :=
  ht.dinst.symm ▸ EXU.routed hfields (IDU.chooses_unit hfields)

/-- The unit meant for the instruction starts on it, and no other does. -/
theorem Issues.accepts_eq (h : Issues R s) (u : ExecUnit) :
    EXU.accepts (R.state (s + 1)).exu (exuIn (R.state (s + 1)) (R.input (s + 1))) u =
      decide (u = unitOf op) :=
  EXU.accepts_eq (h.holds.routed hfields) h.holds.valid h.unitsIdle u

theorem Issues.accepts (h : Issues R s) :
    EXU.accepts (R.state (s + 1)).exu (exuIn (R.state (s + 1)) (R.input (s + 1))) (unitOf op) =
      true :=
  (h.accepts_eq hfields (unitOf op)).trans (decide_eq_true rfl)

theorem Holds.inFire_of_encoded {t : ℕ} (ht : Holds R (IDU.outBits (issuing R s)) t) :
    exuInFire (R.state t) (R.input t) =
      EXU.exuResultValid (R.state t).exu (exuIn (R.state t) (R.input t)) := by
  have hacc := EXU.not_accelerator_of_fields ht.dinst hfields
  have harith := (ht.routed hfields).typ
  rw [ht.dinst] at hacc harith
  exact ht.inFire_eq hacc (EXU.not_needMemReq_of_arithmetic harith)

/-- Completion of an instruction of the cluster. -/
theorem Holds.inFire_of_long (hu : unitOf op ≠ .fastInteger) {t : ℕ}
    (ht : Holds R (IDU.outBits (issuing R s)) t) :
    exuInFire (R.state t) (R.input t) =
      EXU.aluOutValid (R.state t).exu (exuIn (R.state t) (R.input t)) :=
  (ht.inFire_of_encoded hfields).trans
    (EXU.exuResultValid_of_long ht.dinst hfields (ht.routed hfields) hu)

end Encoded

/-! ## The units of the cluster -/

/-- The result of an instruction of the cluster, on the operands of its payload. -/
def EndsWith (R : Run machine) (s : ℕ) (result : Word → Word → Word) : Prop :=
  ∃ t, Executes R (IDU.outBits (issuing R s)) (s + 1) t ∧
    EXU.specialExecutionOut (R.state t).exu (exuIn (R.state t) (R.input t)) =
      result (IDU.reg1 (issuing R s)) (IDU.reg2 (issuing R s))

section Cluster

variable (h : Issues R s)

include h

/-- The cluster hands out what the serial unit answers to the request of the payload. -/
theorem endsWith_serial {Req : Type} {p : UnitPorts EXU.In EXU.Regs Req Word}
    {latency : Req → ℕ} {Answers : Req → Word → Prop} {Working : Req → ℕ → EXU.Regs → Prop}
    (S : Serial EXU.machine p latency Answers Working) {op : ArithOp}
    (hfields : IDU.Fields (IDU.inst (issuing R s)) op.encoding) (hu : unitOf op ≠ .fastInteger)
    (haccepts : ∀ r i, EXU.accepts r i (unitOf op) = (p.inValid i && p.inReady r))
    (hvalid : ∀ r i, EXU.unitValid r i (unitOf op) = p.outValid r)
    (hbits : ∀ r i, EXU.unitBits r i (unitOf op) = p.outBits r)
    (hanswers : ∀ i : EXU.In, i.dinst = IDU.outBits (issuing R s) → ∀ w, Answers (p.inBits i) w →
      w = op.result i.dinst.info.reg1 i.dinst.info.reg2) :
    EndsWith R s op.result := by
  have hstart := h.accepts hfields
  rw [haccepts, Bool.and_eq_true] at hstart
  have hfire : ∀ v, Holds R (IDU.outBits (issuing R s)) v →
      exuInFire (R.state v) (R.input v) = p.outValid (R.state v).exu := by
    intro v hv
    rw [hv.inFire_of_long hfields hu, EXU.aluOutValid_eq (hv.routed hfields), hvalid]
  rcases executes_of_serial S h.holds (UnitPorts.accepted_eq_some.mpr ⟨hstart, rfl⟩) hfire with
    ⟨hexec, hanswer⟩
  have hlast := hexec.holds _ hexec.le le_rfl
  refine ⟨_, hexec, ?_⟩
  rw [EXU.specialExecutionOut_eq (hlast.routed hfields), hbits]
  have hw := hanswers _ h.holds.dinst _ hanswer
  rwa [h.holds.dinst] at hw

theorem endsWith_mul {op : MulOp}
    (hfields : IDU.Fields (IDU.inst (issuing R s)) (ArithOp.mul op).encoding) :
    EndsWith R s (ArithOp.mul op).result := by
  refine endsWith_serial h EXU.multiplier_serial hfields (by simp [unitOf]) (fun _ _ => rfl)
    (fun _ _ => rfl) (fun _ _ => rfl) ?_
  intro i hin w hanswer
  have hfunc3 : EXU.func3t i.dinst = op.func3t := by
    rw [hin]
    exact hfields.func3
  exact hanswer op hfunc3

theorem endsWith_div {op : DivOp}
    (hfields : IDU.Fields (IDU.inst (issuing R s)) (ArithOp.div op).encoding) :
    EndsWith R s (ArithOp.div op).result := by
  refine endsWith_serial h EXU.divider_serial hfields (by simp [unitOf]) (fun _ _ => rfl)
    (fun _ _ => rfl) (fun _ _ => rfl) ?_
  intro i hin w hanswer
  have hfunc3 : EXU.func3t i.dinst = op.func3t := by
    rw [hin]
    exact hfields.func3
  exact hanswer op hfunc3

omit h in
/-- The low bits of the second operand are the field that extends the opcode. -/
theorem low5_of_fields {op : BOp}
    (hfields : IDU.Fields (IDU.inst (issuing R s)) op.encoding) :
    ∀ sel ∈ op.encoding.rs2, (IDU.reg2 (issuing R s)).extractLsb' 0 5 = sel := by
  intro sel hsel
  have himm : op.encoding.immediate = true := by
    cases op <;> first | rfl | exact nomatch hsel
  have hfmt : IDU.isFmtI (IDU.inst (issuing R s)) = true := hfields.fmt.trans himm
  rw [IDU.reg2, hfmt, if_pos rfl, IDU.immI_low5]
  exact hfields.low5 sel hsel

theorem endsWith_bExtension {op : BOp} (hu : unitOf (.bit op) = .bExtension)
    (hfields : IDU.Fields (IDU.inst (issuing R s)) (ArithOp.bit op).encoding) :
    EndsWith R s (ArithOp.bit op).result := by
  refine endsWith_serial h EXU.bExtension_serial hfields (by simp [hu])
    (fun _ _ => by rw [hu]; rfl) (fun _ _ => by rw [hu]; rfl) (fun _ _ => by rw [hu]; rfl) ?_
  intro i hin w hanswer
  have hserved : (BExtensionUnit.operation op).isSome := by
    cases op <;> simp [unitOf] at hu <;> rfl
  have hasks : BExtensionUnit.Asks (EXU.bExtensionPorts.inBits i) op.encoding := by
    constructor
    · show EXU.isFmtI i.dinst = _
      rw [hin]
      exact hfields.fmt
    · show EXU.func3t i.dinst = _
      rw [hin]
      exact hfields.func3
    · show ∀ f ∈ _, EXU.func7t i.dinst = f
      rw [hin]
      exact hfields.func7
    · show ∀ sel ∈ _, i.dinst.info.reg2.extractLsb' 0 5 = sel
      rw [hin]
      exact low5_of_fields hfields
  exact hanswer op hserved hasks

/-- The cluster answers the short operations in their first cycle. -/
theorem endsWith_cluster {op : BOp} (hu : unitOf (.bit op) = .specialCluster)
    (hfields : IDU.Fields (IDU.inst (issuing R s)) (ArithOp.bit op).encoding) :
    EndsWith R s (ArithOp.bit op).result := by
  have haccepts := h.accepts hfields
  simp only [hu, EXU.accepts, Bool.and_eq_true] at haccepts
  have hrouted := h.holds.routed hfields
  have hin := h.holds.dinst
  refine ⟨s + 1, executes_of_waits (n := 0) h.holds (fun k hk => absurd hk (Nat.not_lt_zero k)) ?_,
    ?_⟩
  · intro ht
    rw [ht.inFire_of_long hfields (by simp [hu]), EXU.aluOutValid_eq hrouted, hu]
    exact haccepts.1.1
  · rw [EXU.specialExecutionOut_eq hrouted, hu]
    show SpecialExecutionCluster.aluResult _ = _
    have hasks : SpecialExecutionCluster.Asks
        (EXU.specialIn (exuIn (R.state (s + 1)) (R.input (s + 1)))) op.encoding := by
      rw [EXU.specialIn, hin]
      exact ⟨hfields.fmt, hfields.func3, hfields.func7, low5_of_fields hfields⟩
    rw [SpecialExecutionCluster.aluResult_eq hu hasks, EXU.specialIn, hin]
    rfl

theorem endsWith_long {op : ArithOp} (hu : unitOf op ≠ .fastInteger)
    (hfields : IDU.Fields (IDU.inst (issuing R s)) op.encoding) : EndsWith R s op.result := by
  cases op with
  | int op => exact absurd rfl hu
  | intImm op => exact absurd rfl hu
  | mul op => exact endsWith_mul h hfields
  | div op => exact endsWith_div h hfields
  | bit op =>
    cases hunit : unitOf (.bit op) with
    | fastInteger => exact absurd hunit hu
    | specialCluster => exact endsWith_cluster h hunit hfields
    | bExtension => exact endsWith_bExtension h hunit hfields
    | multiplier => cases op <;> simp [unitOf] at hunit
    | divider => cases op <;> simp [unitOf] at hunit

end Cluster

/-! ## All instructions -/

/-- The word that EXU hands on as the result of the instruction it completes. -/
def resultAt (R : Run machine) (t : ℕ) : Word :=
  ResultLaneSelect.nonLoadData
    (EXU.writeBackInfo (R.state t).exu (exuIn (R.state t) (R.input t)))

/-- An instruction word of RV32I or RV32M in the OP and OP-IMM opcodes, or one of these
opcodes that IDU takes for a bit manipulation. -/
inductive Supported (inst : Word) : Prop
  | int (op : IntOp) (h : op.encoding.Matches inst)
  | intImm (op : IntImmOp) (h : op.encoding.Matches inst)
  | mul (op : MulOp) (h : (ArithOp.mul op).encoding.Matches inst)
  | div (op : DivOp) (h : (ArithOp.div op).encoding.Matches inst)
  | bit (hopcode : IDU.opcode inst = 0b0010011#7 ∨ IDU.opcode inst = 0b0110011#7)
      (h : IDU.recognisesB inst = true)

theorem Supported.exists_op {inst : Word} (h : Supported inst) :
    ∃ op : ArithOp, op.encoding.Matches inst := by
  cases h with
  | int op h => exact ⟨.int op, h⟩
  | intImm op h => exact ⟨.intImm op, h⟩
  | mul op h => exact ⟨.mul op, h⟩
  | div op h => exact ⟨.div op, h⟩
  | bit hopcode h =>
    rcases IDU.exists_of_recognisesB hopcode h with ⟨op, hop⟩
    exact ⟨.bit op, hop⟩

section Result

/-- The instruction issued in cycle `s` completes with the word `w`. -/
def Yields (R : Run machine) (s : ℕ) (w : Word) : Prop :=
  ∃ t, Executes R (IDU.outBits (issuing R s)) (s + 1) t ∧ resultAt R t = w

variable (h : Issues R s) {op : ArithOp}
  (hfields : IDU.Fields (IDU.inst (issuing R s)) op.encoding)

include h hfields

/-- The fast lane ends with the result on the register values at issue. -/
theorem executes_fast (hu : unitOf op = .fastInteger) :
    Yields R s (op.result (issueRegs R s (IDU.rs1 (IDU.inst (issuing R s))))
      (if IDU.isFmtI (IDU.inst (issuing R s)) then IDU.immI (IDU.inst (issuing R s))
        else issueRegs R s (IDU.rs2 (IDU.inst (issuing R s))))) := by
  -- without a late operand the lane answers in the first cycle
  have hnow : EXU.hasLateLoadOperand (IDU.outBits (issuing R s)) = false →
      exuInFire (R.state (s + 1)) (R.input (s + 1)) = true := by
    intro hl
    rw [h.holds.inFire_of_encoded hfields]
    exact EXU.exuResultValid_of_fast h.holds.dinst hfields (h.holds.routed hfields) hu
      h.holds.valid (h.holds.dinst.symm ▸ hl)
  rcases h.executes hnow with ⟨hexec, hdelivered⟩
  refine ⟨_, hexec, ?_⟩
  have hlast := hexec.holds _ hexec.le le_rfl
  have hrouted := hlast.routed hfields
  have hfast : EXU.resultIsFast (exuIn (R.state (completion R s))
      (R.input (completion R s))).dinst = true := by
    rw [hrouted.fast, hu]
    rfl
  have hlane : (EXU.writeBackInfo (R.state (completion R s)).exu (exuIn (R.state (completion R s))
      (R.input (completion R s)))).fastResult.valid = true := by
    simp [EXU.writeBackInfo, hrouted.writes, hfast]
  have hused := (usedOperands hdelivered (settled R _).exu hexec.completes).fast hrouted.typ hfast
  rw [resultAt, nonLoadData_of_fast hlane, hused, hlast.dinst]
  exact outBits_fastInput hu hfields _ _

theorem executes_cluster (hu : unitOf op ≠ .fastInteger) :
    Yields R s (op.result (issueRegs R s (IDU.rs1 (IDU.inst (issuing R s))))
      (if IDU.isFmtI (IDU.inst (issuing R s)) then IDU.immI (IDU.inst (issuing R s))
        else issueRegs R s (IDU.rs2 (IDU.inst (issuing R s))))) := by
  rcases endsWith_long h hu hfields with ⟨t, hexec, hresult⟩
  have hlast := hexec.holds _ hexec.le le_rfl
  have hrouted := h.holds.routed hfields
  rw [h.holds.dinst] at hrouted
  have hslow : EXU.resultIsFast (IDU.outBits (issuing R s)) = false := by
    rw [hrouted.fast]
    exact decide_eq_false hu
  have hloop : EXU.isListReverseLoop (IDU.outBits (issuing R s)) = false := by
    have hacc := EXU.not_accelerator_of_fields h.holds.dinst hfields
    rw [h.holds.dinst] at hacc
    exact Bool.eq_false_iff.mpr fun hk =>
      Bool.false_ne_true (hacc.2.1.symm.trans (EXU.listReverse_of_loop ⟨_, rfl⟩ hk))
  -- an instruction of the cluster holds its operands in its payload
  have hheld := heldOperands h.issued
  rw [h.issued.bits] at hheld
  rcases hheld.special hrouted.typ hslow hloop with ⟨hreg1, hreg2⟩
  refine ⟨t, hexec, ?_⟩
  rw [resultAt, EXU.nonLoadData_of_long (hlast.routed hfields) hu, hresult]
  exact congrArg₂ op.result hreg1 hreg2

end Result

/-- An instruction is accepted by its unit alone and completes with the word that RISC-V defines
for it, on the register values at issue. -/
theorem executes_of_matches (h : Issues R s) {op : ArithOp}
    (hmatches : op.encoding.Matches (IDU.inst (issuing R s))) :
    (∀ u, EXU.accepts (R.state (s + 1)).exu (exuIn (R.state (s + 1)) (R.input (s + 1))) u =
      decide (u = unitOf op)) ∧
    Yields R s (op.result (issueRegs R s ((IDU.inst (issuing R s)).extractLsb' 15 5))
      (op.operand2 (IDU.inst (issuing R s))
        (issueRegs R s ((IDU.inst (issuing R s)).extractLsb' 20 5)))) := by
  have hfields := IDU.fields_of_matches hmatches
  refine ⟨h.accepts_eq hfields, ?_⟩
  rw [← hfields.operand2_eq]
  by_cases hu : unitOf op = .fastInteger
  · exact executes_fast h hfields hu
  · exact executes_cluster h hfields hu

/-- Whatever the memories answer, an instruction with a supported encoding is accepted by
the unit that is meant for it and by no other, and completes with the word that RISC-V
defines for the encoding, on the register values that were current when it was issued. -/
theorem encodings_execute (R : Run machine) (s : ℕ) (h : Issues R s)
    (hsupported : Supported (IDU.inst (issuing R s))) :
    (∃ op : ArithOp, op.encoding.Matches (IDU.inst (issuing R s))) ∧
    ∀ op : ArithOp, op.encoding.Matches (IDU.inst (issuing R s)) →
      (∀ u, EXU.accepts (R.state (s + 1)).exu (exuIn (R.state (s + 1)) (R.input (s + 1))) u =
        decide (u = unitOf op)) ∧
      ∃ t, Executes R (IDU.outBits (issuing R s)) (s + 1) t ∧
        resultAt R t =
          op.result (issueRegs R s ((IDU.inst (issuing R s)).extractLsb' 15 5))
            (op.operand2 (IDU.inst (issuing R s))
              (issueRegs R s ((IDU.inst (issuing R s)).extractLsb' 20 5))) := by
  exact ⟨hsupported.exists_op, fun op hmatches => executes_of_matches h hmatches⟩

/-- `addi x1, x1, 5` over and over. -/
def addiRun : Run machine :=
  machine.runFrom (fun _ => ⟨true, ⟨true, 0x00508093#32⟩, true, ⟨true, 0⟩⟩) Soc.PowerUp.core
    Soc.PowerUp.coreReset

theorem encodings_execute_addi :
    issueRegs addiRun 3 1 = 5#32 ∧
      ∃ t, Executes addiRun (IDU.outBits (issuing addiRun 3)) 4 t ∧ resultAt addiRun t = 10#32 := by
  have hissues : Issues addiRun 3 := ⟨by decide +kernel, by decide +kernel, by decide +kernel⟩
  have hinst : IDU.inst (issuing addiRun 3) = 0x00508093#32 := by decide +kernel
  have hregs : issueRegs addiRun 3 1 = 5#32 := by decide +kernel
  have hmatches : (ArithOp.intImm .addi).encoding.Matches (IDU.inst (issuing addiRun 3)) := by
    rw [hinst]
    exact ⟨by decide, by decide, (fun _ hf => nomatch hf), (fun _ hs => nomatch hs)⟩
  have hrun := (encodings_execute addiRun 3 hissues (.intImm .addi hmatches)).2 _ hmatches
  rcases hrun.2 with ⟨t, hexec, hresult⟩
  refine ⟨hregs, t, hexec, hresult.trans ?_⟩
  rw [hinst]
  show issueRegs addiRun 3 1 + _ = _
  rw [hregs]
  decide

end CPUCore

end Core
end Jyd
