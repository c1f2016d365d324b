import Jyd.Core.CoreRun
import Jyd.Soc.CacheContract

/-!
# SequentialRegs — the pipeline computes with sequential register values

`seqRegs` executes the completed instructions one after the other.  It equals the
register file that is left once LSU and WBU have drained, and every instruction that
completes in EXU computes with it.
-/

namespace Jyd
namespace Soc
namespace JYDSoC

open Hdl Jyd.Core JYDPeripheralBridge

variable {c : Config} {i : In} {s : Regs} {expected : BitVec 15}

/-! ## Draining LSU and WBU -/

/-- The result of the instruction in LSU; a load takes the word that memory is about to
return. -/
def lsuValue (s : Regs) : Word :=
  let b := s.core.lsuPipe.bits
  if b.exuWriteBack.loadResult.valid then
    ExtLoadData (DataBus.due s.bus) (b.destAddr.extractLsb' 0 2) b.func3t
  else ResultLaneSelect.nonLoadData b.exuWriteBack

/-- The register file once LSU and WBU have drained. -/
def drainedRegs (c : Config) (i : In) (s : Regs) : RegisterFile.Regs := fun x =>
  if CPUCore.lsuWrites s.core x then lsuValue s
  else RegisterFile.read s.core.gprs (CPUCore.gprWrite s.core (coreIn c i s)) x

/-- The result of the instruction in EXU: a load reads the data bus at its address. -/
def resultValue (c : Config) (i : In) (s : Regs) : Word :=
  let d := s.core.exuPipe.bits
  if EXU.isTypLoad d then
    ExtLoadData (DataBus.answer c.dramSizeInByte s.bus (EXU.reg1AddImm d) i.uartCh)
      ((EXU.reg1AddImm d).extractLsb' 0 2) (EXU.func3t d)
  else
    ResultLaneSelect.nonLoadData
      (EXU.writeBackInfo s.core.exu (CPUCore.exuIn s.core (coreIn c i s)))

/-- One completed instruction executed on a register file. -/
def writeBack (c : Config) (i : In) (s : Regs) (S : RegisterFile.Regs) : RegisterFile.Regs :=
  fun x => if CPUCore.completesInto s.core (coreIn c i s) x then resultValue c i s else S x

theorem decoded_of_completes (hf : FrontInv c s expected) (hfire : completes c i s = true) :
    Decoded s.core.exuPipe.bits := by
  have hv : CPUCore.exuInValid s.core = true := CPUCore.exuInValid_of_inFire hfire
  exact hf.decoded hv

theorem lsuWrites_next (hf : FrontInv c s expected) (x : BitVec 5) :
    CPUCore.lsuWrites (next c i s).core x = CPUCore.completesInto s.core (coreIn c i s) x := by
  have hpipe : (next c i s).core.lsuPipe = _ := CPUCore.lsuPipe_next s.core (coreIn c i s)
  rw [CPUCore.lsuWrites, hpipe, CPUCore.exuOutValid_eq hf.exu, CPUCore.completesInto]
  cases hfire : CPUCore.exuInFire s.core (coreIn c i s) with
  | false => simp
  | true =>
    have hany : ResultLaneSelect.anyValid
        (EXU.writeBackInfo s.core.exu (CPUCore.exuIn s.core (coreIn c i s))) =
          s.core.exuPipe.bits.info.rdWrEn :=
      CPUCore.anyValid_writeBackInfo (decoded_of_completes hf hfire)
    simp only [EXU.outBits, hany, Bool.and_true, Bool.true_and]
    rfl

theorem lsuValue_next (hf : FrontInv c s expected) (hfire : completes c i s = true) :
    lsuValue (next c i s) = resultValue c i s := by
  have hd := decoded_of_completes hf hfire
  have hpipe : (next c i s).core.lsuPipe = _ := CPUCore.lsuPipe_next s.core (coreIn c i s)
  have hlane : (EXU.writeBackInfo s.core.exu
      (CPUCore.exuIn s.core (coreIn c i s))).loadResult.valid =
        EXU.isTypLoad s.core.exuPipe.bits :=
    CPUCore.loadResult_valid (j := CPUCore.exuIn s.core (coreIn c i s)) hd
  simp only [lsuValue, hpipe, resultValue, EXU.outBits, hlane]
  cases hl : EXU.isTypLoad s.core.exuPipe.bits with
  | false => simp only [Bool.false_eq_true, if_false]
  | true =>
    have hmem : EXU.needMemReq s.core.exuPipe.bits = true := by simp [EXU.needMemReq, hl]
    have hreq := request_of_needMemReq (i := i) hf (CPUCore.exuInValid_of_inFire hfire) hmem
    have hst : EXU.isTypStore s.core.exuPipe.bits = false := by
      have ht : s.core.exuPipe.bits.info.typ = .load := by simpa [EXU.isTypLoad] using hl
      simp [EXU.isTypStore, ht]
    have hdue : DataBus.due (next c i s).bus = _ :=
      DataBus.due_next (request_of_completes hfire hmem) (hreq.2.trans hst)
    simp only [if_true]
    rw [hdue, hreq.1]
    simp only [CPUCore.exuIn]

/-- What LSU holds now is what WBU writes in the next cycle. -/
theorem gprWrite_next {i' : In} :
    CPUCore.gprWrite (next c i s).core (coreIn c i' (next c i s)) =
      ⟨ResultLaneSelect.anyValid s.core.lsuPipe.bits.exuWriteBack && s.core.lsuPipe.valid,
        ResultLaneSelect.rd s.core.lsuPipe.bits.exuWriteBack, lsuValue s⟩ := by
  have hpipe : (next c i s).core.wbuPipe = _ := CPUCore.wbuPipe_next s.core (coreIn c i s)
  have hresp : (coreIn c i' (next c i s)).dramResp.bits = DataBus.due s.bus :=
    DataBus.resp_next_bits
  simp only [CPUCore.gprWrite, WBU.gprData, WBU.loadResult, WBU.gprEn, hpipe, hresp, lsuValue]
  rfl

theorem read_next {i' : In} (x : BitVec 5) :
    RegisterFile.read (next c i s).core.gprs
        (CPUCore.gprWrite (next c i s).core (coreIn c i' (next c i s))) x =
      drainedRegs c i s x := by
  rw [gprWrite_next, drainedRegs]
  have hgprs : (next c i s).core.gprs =
      RegisterFile.next s.core.gprs (CPUCore.gprWrite s.core (coreIn c i s)) := rfl
  rw [hgprs]
  cases hw : CPUCore.lsuWrites s.core x with
  | true =>
    rcases CPUCore.lsuWrites_iff.mp hw with ⟨hany, hv, hrd, h0⟩
    simp [RegisterFile.read, RegisterFile.writeEn, h0, hany, hv, hrd]
  | false =>
    refine RegisterFile.read_next ?_
    refine Bool.eq_false_iff.mpr fun h => ?_
    simp only [RegisterFile.writeEn, Bool.and_eq_true, bne_iff_ne, beq_iff_eq] at h
    rcases h with ⟨⟨⟨hany, hv⟩, h0⟩, rfl⟩
    exact absurd (hw.symm.trans (CPUCore.lsuWrites_iff.mpr ⟨hany, hv, rfl, h0⟩)) (by decide)

/-- Draining commutes with completion. -/
theorem drainedRegs_next (hf : FrontInv c s expected) {i' : In} :
    drainedRegs c i' (next c i s) = writeBack c i s (drainedRegs c i s) := by
  funext x
  rw [drainedRegs, writeBack, lsuWrites_next hf, read_next]
  cases hc : CPUCore.completesInto s.core (coreIn c i s) x with
  | false => rfl
  | true =>
    have hfire : completes c i s = true := by
      simp only [CPUCore.completesInto, Bool.and_eq_true] at hc
      exact hc.1.1.1
    simp only [if_true]
    exact lsuValue_next hf hfire

/-! ## Along a run -/

section Run

variable (R : Run (machine c))

/-- Sequential execution of the completed instructions. -/
def seqRegs : ℕ → RegisterFile.Regs
  | 0 => fun x => if x = 0#5 then 0 else (R.state 0).core.gprs x
  | t + 1 => writeBack c (R.input t) (R.state t) (seqRegs t)

theorem seqRegs_eq (t : ℕ) : seqRegs R t = drainedRegs c (R.input t) (R.state t) := by
  induction t with
  | zero =>
    funext x
    have hlsu := R.init.core.lsuPipe
    have hwbu := R.init.core.wbuPipe
    simp [seqRegs, drainedRegs, CPUCore.lsuWrites, hlsu, RegisterFile.read,
      RegisterFile.writeEn, CPUCore.gprWrite, WBU.gprEn, hwbu]
  | succ t ih =>
    have hstep : R.state (t + 1) = next c (R.input t) (R.state t) := R.step t
    rw [seqRegs, ih, hstep, drainedRegs_next (frontInv R t)]

theorem drained (t : ℕ) : CPUCore.Drained (R.state t).core := by
  have hlsu : ∀ t, (R.state t).core.lsuPipe.valid = true →
      ∃ (e : EXU.Regs) (j : EXU.In), Decoded j.dinst ∧
        (R.state t).core.lsuPipe.bits = EXU.outBits e j := by
    intro t hv
    cases t with
    | zero => exact absurd (R.init.core.lsuPipe.symm.trans hv) (by decide)
    | succ t =>
      rw [lsuPipe_at] at hv ⊢
      exact ⟨_, _, decoded_of_completes (frontInv R t) hv, rfl⟩
  refine ⟨hlsu t, ?_⟩
  intro hv
  cases t with
  | zero => exact absurd (R.init.core.wbuPipe.symm.trans hv) (by decide)
  | succ t =>
    rw [wbuPipe_at] at hv ⊢
    rcases hlsu t hv with ⟨e, j, hd, hbits⟩
    refine ⟨e, j, DCache.readData (R.state t).core.dcache, hd, ?_⟩
    rw [← hbits]
    simp only [LSU.outBits, show (R.state t).core.lsuPipe.valid = true from hv]

theorem unitsOk (t : ℕ) : CPUCore.UnitsOk (R.state t).core := by
  induction t with
  | zero =>
    have hexu := R.init.core.exu
    exact EXU.UnitsIdle.occupied
      ⟨hexu.bExtensionState, hexu.multiplierState, hexu.dividerState⟩
  | succ t ih =>
    rw [R.step t]
    exact CPUCore.unitsOk_next ih (frontInv R t).exu (frontInv R t).decoded

variable {R} {d : RamRegion c.dramSizeInByte}

/-- What LSU forwards is the value that its instruction writes. -/
theorem lsuValue_forwarded {t : ℕ} (h : DisciplinedBefore d R t)
    (hv : (R.state t).core.lsuPipe.valid = true)
    (hvalid : (ExtractFwdInfoFromLSU (R.state t).core.lsuPipe).dataVaild = true) :
    lsuValue (R.state t) = (ExtractFwdInfoFromLSU (R.state t).core.lsuPipe).data := by
  rcases (drained R t).lsu hv with ⟨e, j, hd, hbits⟩
  have hlane : (R.state t).core.lsuPipe.bits.exuWriteBack.loadResult.valid =
      (R.state t).core.lsuPipe.bits.isLoad := by
    rw [hbits]
    exact CPUCore.loadResult_valid hd
  cases hl : (R.state t).core.lsuPipe.bits.isLoad with
  | false => simp [lsuValue, hlane, ExtractFwdInfoFromLSU, hl]
  | true =>
    have hhit : (R.state t).core.lsuPipe.bits.cacheableLoad = true ∧
        (R.state t).core.lsuPipe.bits.dcacheHit = true := by
      simpa [ExtractFwdInfoFromLSU, hl, hv] using hvalid
    have hlsu := (cacheInv h).lsu hv hhit.1
    have hdue : DataBus.due (R.state t).bus = (R.state t).core.lsuPipe.bits.lateLoadData := by
      rw [(hlsu.hit hhit.2).1, DataBus.due, hlsu.target]
      rfl
    simp [lsuValue, hlane, ExtractFwdInfoFromLSU, hl, hdue]

theorem regsOk {t : ℕ} (h : DisciplinedBefore d R t) :
    CPUCore.RegsOk (R.state t).core (coreIn c (R.input t) (R.state t)) (seqRegs R t) := by
  rw [seqRegs_eq]
  refine ⟨?_, ?_, ?_⟩
  · simp [drainedRegs, CPUCore.lsuWrites, RegisterFile.read]
  · intro x hw hvalid
    rw [drainedRegs, hw]
    exact lsuValue_forwarded h (CPUCore.lsuWrites_iff.mp hw).2.1 hvalid
  · intro x hw
    rw [drainedRegs, hw]
    rfl

theorem issuedOk {t : ℕ} (h : DisciplinedBefore d R t) :
    CPUCore.IssuedOk (R.state t).core (seqRegs R t) := by
  induction t with
  | zero =>
    intro hv
    exact absurd (R.init.core.exuPipe.symm.trans (CPUCore.exuInValid_iff.mp hv).1) (by decide)
  | succ t ih =>
    have hbefore : DisciplinedBefore d R t := fun k hk => h k (Nat.lt_succ_of_lt hk)
    rw [R.step t]
    refine CPUCore.issuedOk_next (drained R t) (frontInv R t).exu (frontInv R t).decoded
      (regsOk hbefore) rfl ?_ (ih hbefore)
    intro x hx
    simp [seqRegs, writeBack, hx]

/-! ## Values at issue -/

/-- The core inside a run of the SoC. -/
def coreRun (R : Run (machine c)) : Run CPUCore.machine where
  input := fun t => coreIn c (R.input t) (R.state t)
  state := fun t => (R.state t).core
  init := R.init.core
  step := by
    intro t
    rw [R.step t]
    rfl

/-- A load delivers the same value from the cache and from WBU. -/
theorem loadedValue_eq {t : ℕ} (h : DisciplinedBefore d R t)
    (hv : (R.state t).core.lsuPipe.valid = true)
    (hload : (R.state t).core.lsuPipe.bits.exuWriteBack.loadResult.valid = true) :
    CPUCore.loadedValue (coreRun R) t = lsuValue (R.state t) := by
  rw [CPUCore.loadedValue]
  split
  · rename_i hhit
    have hparts : (R.state t).core.lsuPipe.bits.isLoad = true ∧
        (R.state t).core.lsuPipe.bits.cacheableLoad = true ∧
        (R.state t).core.lsuPipe.bits.dcacheHit = true := by
      have hhit' : (CPUCore.lateLoadLSU (R.state t).core).dataValid = true := hhit
      simp only [CPUCore.lateLoadLSU, Bool.and_eq_true] at hhit'
      exact ⟨hhit'.1.1.1.2, hhit'.1.2, hhit'.2⟩
    have hvalid : (ExtractFwdInfoFromLSU (R.state t).core.lsuPipe).dataVaild = true := by
      simp [ExtractFwdInfoFromLSU, hv, hparts]
    rw [lsuValue_forwarded h hv hvalid]
    simp only [ExtractFwdInfoFromLSU, hparts.1, if_true]
    rfl
  · -- WBU receives the word that was due while the load was in LSU
    show (CPUCore.lateLoadWBU (R.state (t + 1)).core
      (coreIn c (R.input (t + 1)) (R.state (t + 1)))).data = _
    have hresp : (coreIn c (R.input (t + 1)) (R.state (t + 1))).dramResp.bits =
        DataBus.due (R.state t).bus := by
      rw [R.step t]
      exact DataBus.resp_next_bits
    simp only [CPUCore.lateLoadWBU, hresp, wbuPipe_at, lsuValue, hload, if_true]
    rfl

/-- The values an instruction is issued with are those of the sequential registers. -/
theorem issueRegs_eq {s : ℕ} (h : DisciplinedBefore d R (s + 1)) {x : BitVec 5}
    (hx : CPUCore.completesInto (R.state s).core (coreIn c (R.input s) (R.state s)) x = false →
      CPUCore.lsuWrites (R.state s).core x = true →
      (ExtractFwdInfoFromLSU (R.state s).core.lsuPipe).dataVaild = true) :
    CPUCore.issueRegs (coreRun R) s x = seqRegs R (s + 1) x := by
  have hbefore : DisciplinedBefore d R s := fun k hk => h k (Nat.lt_succ_of_lt hk)
  rw [seqRegs, writeBack, CPUCore.issueRegs]
  cases hc : CPUCore.completesInto (R.state s).core (coreIn c (R.input s) (R.state s)) x with
  | true =>
    have hc' : CPUCore.completesInto ((coreRun R).state s) ((coreRun R).input s) x = true := hc
    have hfire : completes c (R.input s) (R.state s) = true := by
      simp only [CPUCore.completesInto, Bool.and_eq_true] at hc
      exact hc.1.1.1
    -- the result that leaves EXU is the value of LSU in the next cycle
    have hvalue : lsuValue (R.state (s + 1)) = resultValue c (R.input s) (R.state s) := by
      rw [R.step s]
      exact lsuValue_next (frontInv R s) hfire
    have hlane : (R.state (s + 1)).core.lsuPipe.bits.exuWriteBack.loadResult.valid =
        EXU.isTypLoad (R.state s).core.exuPipe.bits := by
      rw [lsuPipe_at]
      exact CPUCore.loadResult_valid
        (j := CPUCore.exuIn (R.state s).core (coreIn c (R.input s) (R.state s)))
        (decoded_of_completes (frontInv R s) hfire)
    rw [if_pos hc', if_pos rfl, ← hvalue]
    cases hl : EXU.isTypLoad (R.state s).core.exuPipe.bits with
    | true =>
      have hl' : EXU.isTypLoad ((coreRun R).state s).exuPipe.bits = true := hl
      have hv : (R.state (s + 1)).core.lsuPipe.valid = true := by
        rw [lsuPipe_at]
        exact hfire
      rw [if_pos hl', loadedValue_eq h hv (hlane.trans hl)]
    | false =>
      have hl' : EXU.isTypLoad ((coreRun R).state s).exuPipe.bits ≠ true :=
        Bool.eq_false_iff.mp hl
      rw [if_neg hl', lsuValue, hlane, hl, if_neg (by decide)]
      rfl
  | false =>
    have hc' : CPUCore.completesInto ((coreRun R).state s) ((coreRun R).input s) x ≠ true :=
      Bool.eq_false_iff.mp hc
    have hregs := regsOk hbefore
    rw [if_neg hc', if_neg (by decide), CPUCore.behindExu]
    cases hw : CPUCore.lsuWrites (R.state s).core x with
    | true =>
      have hw' : CPUCore.lsuWrites ((coreRun R).state s) x = true := hw
      rw [if_pos hw', hregs.lsu x hw (hx hc hw)]
      rfl
    | false =>
      have hw' : CPUCore.lsuWrites ((coreRun R).state s) x ≠ true := Bool.eq_false_iff.mp hw
      rw [if_neg hw', hregs.rest x hw]
      rfl

/-- An operand that does not hold up its consumer is issued with its sequential value. -/
theorem issueRegs_of_mux {s : ℕ} (h : DisciplinedBefore d R (s + 1))
    (hissue : CPUCore.Issues (coreRun R) s) {rs : BitVec 5} {regData : Word}
    {allowLate allowFast : Bool}
    (hstall : (IDU.CacheAwareByPassMux rs regData (CPUCore.issuing (coreRun R) s).exu
      (CPUCore.issuing (coreRun R) s).lsu (CPUCore.issuing (coreRun R) s).lateLoadProducer
      allowLate allowFast).needStall = false) :
    CPUCore.issueRegs (coreRun R) s rs = seqRegs R (s + 1) rs := by
  refine issueRegs_eq h fun hc hw => ?_
  -- a producer in EXU would move to LSU together with the issue
  have hexu : IDU.conflict rs (CPUCore.issuing (coreRun R) s).exu.addr
      (CPUCore.issuing (coreRun R) s).exu.enWr = false := by
    refine Bool.eq_false_iff.mpr fun hconflict => ?_
    rcases IDU.conflict_iff.mp hconflict with ⟨hrd, h0, hen⟩
    have hparts : (R.state s).core.exuPipe.bits.info.rdWrEn = true ∧
        CPUCore.exuInValid (R.state s).core = true := by
      simpa [CPUCore.issuing, CPUCore.iduIn, coreRun, EXU.fwd, CPUCore.exuIn] using hen
    have hrd' : (R.state s).core.exuPipe.bits.info.rd = rs := hrd.symm
    have hfire : CPUCore.exuInFire (R.state s).core (coreIn c (R.input s) (R.state s)) = true :=
      CPUCore.inFire_of_move hparts.2 hissue.move
    have h0' : rs ≠ 0#5 := hrd ▸ h0
    simp [CPUCore.completesInto, hfire, hparts.1, hrd', h0'] at hc
  have hlsu : IDU.conflict rs (CPUCore.issuing (coreRun R) s).lsu.addr
      (CPUCore.issuing (coreRun R) s).lsu.enWr = true := CPUCore.conflict_lsu.trans hw
  show (CPUCore.issuing (coreRun R) s).lsu.dataVaild = true
  simpa [IDU.CacheAwareByPassMux, hexu, hlsu] using hstall

/-- Instructions are issued with the operands that sequential execution gives them. -/
theorem operands_sequential {s : ℕ} (h : DisciplinedBefore d R (s + 1))
    (hissue : CPUCore.Issues (coreRun R) s) :
    (IDU.isListReverseLoopEncoding (IDU.inst (CPUCore.issuing (coreRun R) s)) = false →
      IDU.needReg1AddImm (IDU.inst (CPUCore.issuing (coreRun R) s)) = false →
      CPUCore.issueRegs (coreRun R) s (IDU.rs1 (IDU.inst (CPUCore.issuing (coreRun R) s))) =
        seqRegs R (s + 1) (IDU.rs1 (IDU.inst (CPUCore.issuing (coreRun R) s)))) ∧
      CPUCore.issueRegs (coreRun R) s (IDU.rs2 (IDU.inst (CPUCore.issuing (coreRun R) s))) =
        seqRegs R (s + 1) (IDU.rs2 (IDU.inst (CPUCore.issuing (coreRun R) s))) := by
  have hstall : IDU.needStall (CPUCore.issuing (coreRun R) s) = false := by
    have hout := hissue.valid
    simp only [IDU.outValid, Bool.and_eq_true, Bool.not_eq_true'] at hout
    exact hout.2
  simp only [IDU.needStall, Bool.or_eq_false_iff] at hstall
  refine ⟨?_, issueRegs_of_mux h hissue hstall.1.2⟩
  intro hloop hneed
  have hs1 := hstall.1.1
  rw [IDU.byPass1, hloop, hneed] at hs1
  exact issueRegs_of_mux h hissue hs1

end Run

/-! ## The default SoC -/

/-- In every state that is reached through stores addressed to the RAM window: the payload
of the instruction in EXU holds the sequential address, CSR, multi-cycle and accelerator
operands; an instruction that completes computes its result, its branch decision and its
store data from the sequential registers; a multi-cycle unit only ever works for the
instruction in EXU and is idle when the next one arrives; and the assertions on the fast
tokens hold. -/
theorem sequential_operands (rom : Rom) (R : Run (machine (jydSoC rom))) (t : ℕ)
    (h : ∀ k < t, StoresInWindow (jydSoC rom) (R.input k) (R.state k)) :
    (CPUCore.exuInValid (R.state t).core = true →
        CPUCore.HeldOperands (R.state t).core.exuPipe.bits (seqRegs R t)) ∧
      (completesAt R t = true →
        CPUCore.UsedOperands (R.state t).core.exu
            (CPUCore.exuIn (R.state t).core (coreIn (jydSoC rom) (R.input t) (R.state t)))
            (seqRegs R t) ∧
          EXU.UnitsIdle (R.state (t + 1)).core.exu) ∧
      EXU.UnitsOccupied (R.state t).core.exu (CPUCore.exuInValid (R.state t).core)
        (R.state t).core.exuPipe.bits ∧
      EXU.fastTokenAsserts
        (CPUCore.exuIn (R.state t).core (coreIn (jydSoC rom) (R.input t) (R.state t))) = true := by
  have hdisc := disciplinedBefore_of_storesInWindow h
  have hissued := issuedOk hdisc
  refine ⟨?_, ?_, unitsOk R t, ?_⟩
  · intro hv
    rcases hissued hv with ⟨j, hj⟩
    exact CPUCore.heldOperands hj
  · intro hfire
    rcases hissued (CPUCore.exuInValid_of_inFire hfire) with ⟨j, hj⟩
    have hdelivered := CPUCore.delivered_of_issued (drained R t) (regsOk hdisc) hj
    refine ⟨CPUCore.usedOperands hdelivered (frontInv R t).exu hfire, ?_⟩
    rw [R.step t]
    exact CPUCore.unitsIdle_next (unitsOk R t) (frontInv R t).exu (frontInv R t).decoded hfire
  · cases hv : CPUCore.exuInValid (R.state t).core with
    | false => simp [EXU.fastTokenAsserts, CPUCore.exuIn, hv]
    | true =>
      rcases hissued hv with ⟨j, hj⟩
      exact CPUCore.fastTokenAsserts_of_issued hj

theorem sequential_operands_windowStore :
    let c := jydSoC (romOf windowStore)
    let R := run c
    (∀ k < 5, StoresInWindow c (R.input k) (R.state k)) ∧ completesAt R 5 = true ∧
      EXU.isTypStore (R.state 5).core.exuPipe.bits = true ∧
      EXU.storeRegV2 (CPUCore.exuIn (R.state 5).core (coreIn c (R.input 5) (R.state 5))) =
        seqRegs R 5 1#5 := by
  intro c R
  have h : ∀ k < 5, StoresInWindow c (R.input k) (R.state k) := by decide +kernel
  have hfire : completesAt R 5 = true := by decide +kernel
  have hstore : EXU.isTypStore (R.state 5).core.exuPipe.bits = true := by decide +kernel
  have hrs2 : IDU.rs2 (R.state 5).core.exuPipe.bits.code = 1#5 := by decide +kernel
  refine ⟨h, hfire, hstore, ?_⟩
  rw [← hrs2]
  exact (((sequential_operands _ R 5 h).2.1 hfire).1).store hstore

/-- After the store to the unassigned peripheral the second load hits the stale line, and
the addition behind it computes with `0` where the load's own answer is `0x80100000`. -/
theorem stale_operand_after_unassigned_store :
    let c := jydSoC (romOf unassignedStore)
    let R := run c
    let k := CPUCore.exuIn (R.state 10).core (coreIn c (R.input 10) (R.state 10))
    completesAt R 10 = true ∧ (R.state 10).core.exuPipe.bits.code = 0x00020293#32 ∧
      (EXU.writeBackInfo (R.state 10).core.exu k).fastResult.data = 0#32 ∧
      seqRegs R 10 4#5 = 0x80100000#32 ∧
      ¬ CPUCore.UsedOperands (R.state 10).core.exu k (seqRegs R 10) := by
  intro c R k
  refine ⟨by decide +kernel, by decide +kernel, by decide +kernel, by decide +kernel, ?_⟩
  intro h
  exact absurd (h.fast (by decide +kernel) (by decide +kernel)) (by decide +kernel)

end JYDSoC
end Soc
end Jyd
