import Jyd.Coremark.XaccelWrappers
import Jyd.Soc.XlistrevContract

/-!
# XdfaContract — numeric-DFA counters against the reference simulator

The accelerator counts transitions in twelve bits and final states in sixteen, the
reference simulator in thirty-two.  Both are compared with a tally of natural numbers, so
that each read is right exactly as long as the tally fits the register.
-/

namespace Jyd
namespace Soc

open Hdl Jyd.Core Jyd.Core.NumericTokenDfa Jyd.Core.NumericDfa

/-! ## Calls -/

/-- A numeric-DFA instruction with the values of its operands. -/
inductive DfaCall
  | init
  | step (state : BitVec 3) (address : Word)
  | histogramStep (state : BitVec 3) (address : Word)
  | commit (mask : Word)
  | read (state : BitVec 3)
  | finalRead (state : BitVec 3)
  deriving DecidableEq, Repr

namespace DfaCall

def op : DfaCall → Op
  | init => ⟨0, 0, 0, 0⟩
  | step state address => ⟨5, 0, state.setWidth 32, address⟩
  | histogramStep state address => ⟨5, 1, state.setWidth 32, address⟩
  | commit mask => ⟨3, 0, mask, 0⟩
  | read state => ⟨2, 0, state.setWidth 32, 0⟩
  | finalRead state => ⟨2, 1, state.setWidth 32, 0⟩

/-- The instruction with its operands in `x1` and `x2` and its result in `x3`. -/
def inst : DfaCall → Nemu.Inst
  | init => .xdfacntInit
  | step _ _ => .xdfa4Step 3 1 2
  | histogramStep _ _ => .xdfa4hStep 3 1 2
  | commit _ => .xdfacntCommit 1
  | read _ => .xdfacntRead 3 1
  | finalRead _ => .xdfa4hFinalRead 3 1

/-- The two sides mean the same encoding. -/
theorem decode_inst (call : DfaCall) :
    Nemu.decode (insnR 0x5b#7 call.op.func3t call.op.func7t 3 1 2) = some call.inst := by
  cases call with
  | init => decide
  | step _ _ => exact (by decide : Nemu.decode (insnR 0x5b#7 5 0 3 1 2) = some (.xdfa4Step 3 1 2))
  | histogramStep _ _ =>
    exact (by decide : Nemu.decode (insnR 0x5b#7 5 1 3 1 2) = some (.xdfa4hStep 3 1 2))
  | commit _ => exact (by decide : Nemu.decode (insnR 0x5b#7 3 0 3 1 2) = some (.xdfacntCommit 1))
  | read _ => exact (by decide : Nemu.decode (insnR 0x5b#7 2 0 3 1 2) = some (.xdfacntRead 3 1))
  | finalRead _ =>
    exact (by decide : Nemu.decode (insnR 0x5b#7 2 1 3 1 2) = some (.xdfa4hFinalRead 3 1))

/-- The simulator with the operands of the call. -/
def loaded (call : DfaCall) (s : Nemu.Cpu) : Nemu.Cpu :=
  { s with gpr := Function.update (Function.update s.gpr 1 call.op.reg_v1) 2 call.op.reg_v2 }

/-- The simulator decodes the word and executes it on the operands. -/
def nemu (call : DfaCall) (s : Nemu.Cpu) : Nemu.Cpu × Word :=
  let after := (Nemu.decode (insnR 0x5b#7 call.op.func3t call.op.func7t 3 1 2)).elim
    (call.loaded s) (call.loaded s).exec
  (after, after.gpr 3)

theorem nemu_eq (call : DfaCall) (s : Nemu.Cpu) :
    call.nemu s = ((call.loaded s).exec call.inst, ((call.loaded s).exec call.inst).gpr 3) := by
  rw [nemu, decode_inst]
  rfl

/-- The word that a step reads is the same in both memories. -/
def Agrees (mem : Mem) (pmem : Nemu.Pmem) : DfaCall → Prop
  | step _ address | histogramStep _ address =>
    Nemu.vaddrRead pmem (address &&& ~~~3#32) = mem.wordAt address
  | _ => True

end DfaCall

/-! ## The tally -/

/-- The scan of one word step. -/
def scanAt (mem : Mem) (state : BitVec 3) (address : Word) : Scan :=
  (Scan.start state).bytes
    (symbols (mem.wordAt address >>> (8 * (address.extractLsb' 0 2).toNat)) (Coremark.left address))

theorem stepAt_scanAt (mem : Mem) (state : BitVec 3) (address : Word) :
    (stepAt mem state address).Tracks (scanAt mem state address) false := by
  have htracks := @wordStep_tracks state
    (mem.wordAt address >>> (8 * (address.extractLsb' 0 2).toNat))
    (4#3 - (address.extractLsb' 0 2).setWidth 3)
    (by rw [Coremark.available_eq]; exact Coremark.left_pos.1)
    (by rw [Coremark.available_eq]; exact Coremark.left_pos.2)
  rw [Coremark.available_eq] at htracks
  exact htracks

/-- How often each transition and each final state has been counted since the last `init`. -/
structure Tally where
  counters : BitVec 3 → ℕ
  final : BitVec 3 → ℕ
  pending : BitVec 8

namespace Tally

def zero : Tally := ⟨fun _ => 0, fun _ => 0, 0⟩

def addMask {w : ℕ} (t : Tally) (mask : BitVec w) : Tally :=
  { t with counters := fun s => t.counters s + if mask.getLsbD s.toNat then 1 else 0 }

def addFinal (t : Tally) (state : BitVec 3) : Tally :=
  { t with final := fun s => t.final s + if s = state then 1 else 0 }

def exec (mem : Mem) (t : Tally) : DfaCall → Tally
  | .init => zero
  | .histogramStep state address =>
    let a := scanAt mem state address
    if a.stopped then
      (({ t with pending := 0 } : Tally).addMask (t.pending ||| a.mask)).addFinal a.state
    else { t with pending := t.pending ||| a.mask }
  | .commit mask => t.addMask mask
  | .step _ _ | .read _ | .finalRead _ => t

end Tally

/-! ## The accelerator -/

/-- The counters hold the tally, as far as they are wide. -/
structure Counted (c : Counts) (t : Tally) : Prop where
  counters : ∀ s : BitVec 3, c.counters (stateIndex s) = BitVec.ofNat 12 (t.counters s)
  final : ∀ s : BitVec 3, c.final (stateIndex s) = BitVec.ofNat 16 (t.final s)
  pending : c.pending = t.pending

variable {mem : Mem} {c : Counts} {t : Tally} {call : DfaCall}

theorem Counted.addMask {w : ℕ} (h : Counted c t) (mask : BitVec w) :
    Counted (c.addMask mask) (t.addMask mask) := by
  refine ⟨?_, h.final, h.pending⟩
  intro s
  have hindex : ((stateIndex s : Fin 8) : ℕ) = s.toNat := rfl
  simp only [Counts.addMask, Tally.addMask, hindex, h.counters]
  cases mask.getLsbD s.toNat with
  | false => simp
  | true => simp [BitVec.ofNat_add]

theorem Counted.addFinal (h : Counted c t) (state : BitVec 3) :
    Counted (c.addFinal state) (t.addFinal state) := by
  refine ⟨h.counters, ?_, h.pending⟩
  intro s
  have hindex : state.toNat = ((stateIndex s : Fin 8) : ℕ) ↔ s = state := by
    constructor
    · intro heq
      exact BitVec.eq_of_toNat_eq heq.symm
    · intro heq
      rw [heq]
      rfl
  simp only [Counts.addFinal, Tally.addFinal, hindex, h.final]
  by_cases hs : s = state
  · simp [hs, BitVec.ofNat_add]
  · simp [hs]

theorem Counted.exec (h : Counted c t) :
    Counted (execute mem call.op c).1 (t.exec mem call) := by
  cases call with
  | init =>
    refine ⟨fun _ => ?_, fun _ => ?_, ?_⟩ <;>
      simp [execute, DfaCall.op, Op.isStep, Counts.zero, Tally.exec, Tally.zero]
  | step state address =>
    simpa [execute, DfaCall.op, Op.isStep, Op.isHistogram, Tally.exec] using h
  | histogramStep state address =>
    have hlane := stepAt_scanAt mem state address
    have hexec : (execute mem (DfaCall.histogramStep state address).op c).1 =
        c.histogram (stepAt mem state address) := by
      simp [execute, DfaCall.op, Op.isStep, Op.isHistogram, Coremark.low_setWidth]
    rw [hexec, Counts.histogram, hlane.stopped, hlane.state, hlane.mask, h.pending]
    cases hstop : (scanAt mem state address).stopped with
    | true =>
      have hcleared : Counted ({ c with pending := 0 } : Counts) { t with pending := 0 } :=
        ⟨h.counters, h.final, rfl⟩
      simpa [Tally.exec, hstop] using (hcleared.addMask _).addFinal _
    | false =>
      simpa [Tally.exec, hstop] using
        (⟨h.counters, h.final, rfl⟩ : Counted
          ({ c with pending := t.pending ||| (scanAt mem state address).mask } : Counts)
          { t with pending := t.pending ||| (scanAt mem state address).mask })
  | commit mask =>
    simpa [execute, DfaCall.op, Op.isStep, Tally.exec] using h.addMask mask
  | read state => simpa [execute, DfaCall.op, Op.isStep, Tally.exec] using h
  | finalRead state => simpa [execute, DfaCall.op, Op.isStep, Tally.exec] using h

/-! ## The simulator -/

/-- The variables of `numeric_dfa_word_step` carry the scan. -/
structure Follows (w : Nemu.WordStep) (a : Scan) : Prop where
  state : w.state = a.state.setWidth 32
  consumed : w.consumed = BitVec.ofNat 32 a.consumed
  mask : w.mask = a.mask.setWidth 32
  stop : w.stop = a.stopped

theorem isDigit_eq (b : BitVec 8) : Nemu.WordStep.isDigit b = isDigit b := by
  have hall : ∀ b : BitVec 8, Nemu.WordStep.isDigit b = isDigit b := by decide +kernel
  exact hall b

variable {w : Nemu.WordStep} {a : Scan} {b : BitVec 8}

theorem symbolClasses : Nemu.WordStep.isSign b = (b == chr '+' || b == chr '-') ∧
    Nemu.WordStep.isDot b = (b == chr '.') ∧
    Nemu.WordStep.isExponent b = (b == chr 'E' || b == chr 'e') := ⟨rfl, rfl, rfl⟩

/-- The `switch` of the simulator takes the step of the automaton. -/
theorem transition_eq {q : BitVec 3} (hq : q ≠ 1#3) (consumed mask : Word) (stop : Bool) :
    (⟨q.setWidth 32, consumed, mask, stop⟩ : Nemu.WordStep).transition b =
      ⟨(nextState q b).setWidth 32, consumed,
        mask ||| (transitionMask q (nextState q b)).setWidth 32, stop⟩ := by
  have hstates : ∀ q : BitVec 3, q = 0#3 ∨ q = 1#3 ∨ q = 2#3 ∨ q = 3#3 ∨ q = 4#3 ∨ q = 5#3 ∨
      q = 6#3 ∨ q = 7#3 := by decide
  simp only [Nemu.WordStep.transition, isDigit_eq, symbolClasses]
  rcases hstates q with rfl | rfl | rfl | rfl | rfl | rfl | rfl | rfl
  case inr.inl => exact absurd rfl hq
  -- the step looks at the classes of the symbol only
  all_goals
    simp only [nextState]
    generalize isDigit b = digit
    generalize (b == chr '+' || b == chr '-') = sign
    generalize (b == chr '.') = dot
    generalize (b == chr 'E' || b == chr 'e') = exponent
    cases digit <;> cases sign <;> cases dot <;> cases exponent <;>
      simp [transitionMask, Nemu.WordStep.goto, Nemu.WordStep.setBit, BitVec.or_assoc]

/-- One iteration of the byte loop. -/
theorem Follows.byte (h : Follows w a) (hgo : a.stopped = false) :
    Follows (w.byte b) (a.byte b) := by
  have hstop : w.stop = false := h.stop.trans hgo
  have hcount : w.consumed + 1#32 = BitVec.ofNat 32 (a.consumed + 1) := by
    rw [h.consumed, BitVec.ofNat_add]
  by_cases hzero : b = 0#8
  · subst hzero
    refine ⟨?_, ?_, ?_, ?_⟩ <;>
      simp [Nemu.WordStep.byte, Scan.byte, hgo, h.state, h.consumed, h.mask]
  by_cases hcomma : b = chr ','
  · subst hcomma
    refine ⟨?_, ?_, ?_, ?_⟩ <;>
      simp [Nemu.WordStep.byte, Scan.byte, hgo, hcount, h.state, h.mask, chr]
  have hbyte : w.byte b =
      let v := ({ w with consumed := w.consumed + 1 } : Nemu.WordStep).transition b
      if v.state == 1#32 then { v with stop := true } else v := by
    have hc : (b == 0x2c#8) = false := beq_false_of_ne hcomma
    simp [Nemu.WordStep.byte, hzero, hc]
  have hscan : a.byte b =
      ⟨nextState a.state b, a.mask ||| transitionMask a.state (nextState a.state b), a.consumed + 1,
        nextState a.state b == 1#3⟩ := by
    simp [Scan.byte, hgo, hzero, hcomma]
  have hinvalid : ∀ q : BitVec 3, (q.setWidth 32 == 1#32) = (q == 1#3) := by decide
  by_cases hq : a.state = 1#3
  · -- the simulator stops in the default case, the automaton stays invalid
    have hnext : nextState 1#3 b = 1#3 := rfl
    have hw : ({ w with consumed := w.consumed + 1 } : Nemu.WordStep).transition b =
        { w with consumed := w.consumed + 1, stop := true } := by
      simp [Nemu.WordStep.transition, h.state, hq]
    rw [hbyte, hw, hscan, hq, hnext]
    refine ⟨?_, ?_, ?_, ?_⟩ <;> simp [h.state, hq, hcount, h.mask, transitionMask]
  · have hw : ({ w with consumed := w.consumed + 1 } : Nemu.WordStep).transition b =
        ⟨(nextState a.state b).setWidth 32, w.consumed + 1,
          w.mask ||| (transitionMask a.state (nextState a.state b)).setWidth 32, w.stop⟩ := by
      rw [← transition_eq hq, ← h.state]
    rw [hbyte, hw, hscan]
    simp only [hinvalid]
    cases hend : nextState a.state b == 1#3 <;>
      refine ⟨?_, ?_, ?_, ?_⟩ <;> simp [hcount, h.mask, hstop, BitVec.setWidth_or]

theorem Follows.loop (h : Follows w a) (data : Word) (width i : ℕ) :
    Follows (Nemu.WordStep.loop data width i w)
      (a.bytes ((List.range width).map (fun k => byteOf data (i + k)))) := by
  induction width generalizing w a i with
  | zero => exact h
  | succ width ih =>
    have hfirst : (data >>> (8 * i)).setWidth 8 = byteOf data (i + 0) := by
      apply BitVec.eq_of_getLsbD_eq
      intro n hn
      rw [getLsbD_byteOf, BitVec.getLsbD_setWidth, BitVec.getLsbD_ushiftRight, Nat.add_zero]
    have hrest : (List.range (width + 1)).map (fun k => byteOf data (i + k)) =
        byteOf data (i + 0) :: (List.range width).map (fun k => byteOf data (i + 1 + k)) := by
      rw [List.range_succ_eq_map, List.map_cons, List.map_map]
      congr 1
      apply List.map_congr_left
      intro k _
      rw [Function.comp_apply, Nat.succ_eq_add_one, Nat.add_comm k 1, Nat.add_assoc]
    rw [Nemu.WordStep.loop, hrest, Scan.bytes_cons, hfirst]
    cases hstop : a.stopped with
    | true =>
      rw [if_pos (h.stop.trans hstop), Scan.byte_of_stopped hstop, Scan.bytes_of_stopped hstop]
      exact h
    | false =>
      rw [if_neg (by simp [h.stop, hstop])]
      exact ih (h.byte hstop) (i + 1)

theorem stepResult_eq (l : Lane) :
    l.state.setWidth 32 ||| (l.consumed.setWidth 32 <<< 3) |||
      ((BitVec.ofBool l.stopped).setWidth 32 <<< 6) ||| (l.mask.setWidth 32 <<< 7) =
        stepResult l := by
  apply BitVec.eq_of_getLsbD_eq
  intro n hn
  simp only [stepResult, BitVec.getLsbD_or, BitVec.getLsbD_shiftLeft, BitVec.getLsbD_setWidth,
    BitVec.getLsbD_append]
  grind

/-- Both machines return the same word from a step. -/
theorem numericDfaWordStep_eq (state : BitVec 3) (address : Word) :
    Nemu.numericDfaWordStep (state.setWidth 32)
        (mem.wordAt address >>> (8 * (address.extractLsb' 0 2).toNat)) (Coremark.left address) =
      stepResult (stepAt mem state address) := by
  have hlane := stepAt_scanAt mem state address
  have hstart : Follows ⟨state.setWidth 32, 0, 0, false⟩ (Scan.start state) := ⟨rfl, rfl, rfl, rfl⟩
  have hloop := hstart.loop (mem.wordAt address >>> (8 * (address.extractLsb' 0 2).toNat))
    (Coremark.left address) 0
  simp only [Nat.zero_add] at hloop
  have hscan : Follows _ (scanAt mem state address) := hloop
  have hle : (scanAt mem state address).consumed ≤ 4 := by
    have hbytes := @Scan.consumed_bytes_le (Scan.start state)
      (symbols (mem.wordAt address >>> (8 * (address.extractLsb' 0 2).toNat)) (Coremark.left address))
    have hleft := (@Coremark.left_pos address).2
    simp only [symbols, List.length_map, List.length_range, Scan.start, Nat.zero_add] at hbytes
    exact le_trans hbytes hleft
  have hcount : BitVec.ofNat 32 (scanAt mem state address).consumed =
      (stepAt mem state address).consumed.setWidth 32 := by
    rw [hlane.consumed]
    apply BitVec.eq_of_toNat_eq
    rw [BitVec.toNat_setWidth, BitVec.toNat_ofNat, BitVec.toNat_ofNat]
    omega
  rw [← stepResult_eq, ← hcount, hlane.state, hlane.stopped, hlane.mask, ← hscan.state,
    ← hscan.consumed, ← hscan.mask, ← hscan.stop]
  rfl

/-- The counters of the simulator hold the tally in thirty-two bits. -/
structure Simulated (s : Nemu.Cpu) (t : Tally) : Prop where
  counters : ∀ k, s.numericDfaTransitionCounts k = BitVec.ofNat 32 (t.counters k)
  final : ∀ k, s.numericDfaFinalCounts k = BitVec.ofNat 32 (t.final k)
  pending : s.numericDfaPendingMask = t.pending.setWidth 32

theorem bump_eq {w : ℕ} {n : BitVec 3 → Word} (mask : BitVec w) (wide : Word)
    (hmask : ∀ k : BitVec 3, wide.getLsbD k.toNat = mask.getLsbD k.toNat)
    (h : ∀ k, n k = BitVec.ofNat 32 (t.counters k)) (k : BitVec 3) :
    Nemu.Cpu.bump n wide k = BitVec.ofNat 32 ((t.addMask mask).counters k) := by
  simp only [Nemu.Cpu.bump, Tally.addMask, hmask, h]
  cases mask.getLsbD k.toNat with
  | false => simp
  | true => simp [BitVec.ofNat_add]

theorem offset_eq (address : Word) : (address &&& 3#32).toNat = (address.extractLsb' 0 2).toNat := by
  rw [BitVec.toNat_and, BitVec.extractLsb'_toNat, Nat.shiftRight_zero]
  exact Nat.and_two_pow_sub_one_eq_mod address.toNat 2

variable {s : Nemu.Cpu}

/-- The simulator's result of a step, on the word that both machines read. -/
theorem wordStep_nemu {state : BitVec 3} {address : Word}
    (hmem : Nemu.vaddrRead s.pmem (address &&& ~~~3#32) = mem.wordAt address) :
    Nemu.numericDfaWordStep (state.setWidth 32) (s.symbolsAt address).1 (s.symbolsAt address).2 =
      stepResult (stepAt mem state address) := by
  rw [← numericDfaWordStep_eq, Nemu.Cpu.symbolsAt, hmem, offset_eq]
  rfl

theorem stepResult_getElem (l : Lane) : (stepResult l)[6] = l.stopped := by
  rw [← BitVec.getLsbD_eq_getElem]
  exact Coremark.stepResult_bit

/-- The effect of a histogram step on the simulator's counters. -/
theorem DfaCall.nemu_histogramStep {state : BitVec 3} {address : Word} {l : Lane}
    (hword : Nemu.numericDfaWordStep (state.setWidth 32) (s.symbolsAt address).1
      (s.symbolsAt address).2 = stepResult l) :
    ((DfaCall.histogramStep state address).nemu s).1 =
      { ((DfaCall.histogramStep state address).nemu s).1 with
        pmem := s.pmem
        numericDfaTransitionCounts :=
          if l.stopped then
            Nemu.Cpu.bump s.numericDfaTransitionCounts
              (s.numericDfaPendingMask ||| l.mask.setWidth 32)
          else s.numericDfaTransitionCounts
        numericDfaFinalCounts :=
          if l.stopped then
            Function.update s.numericDfaFinalCounts l.state (s.numericDfaFinalCounts l.state + 1)
          else s.numericDfaFinalCounts
        numericDfaPendingMask :=
          if l.stopped then 0 else s.numericDfaPendingMask ||| l.mask.setWidth 32 } := by
  have hsame : ∀ g, ({ s with gpr := g } : Nemu.Cpu).symbolsAt = s.symbolsAt := fun _ => rfl
  cases hstop : l.stopped <;>
    simp [DfaCall.nemu_eq, DfaCall.loaded, DfaCall.inst, DfaCall.op, Nemu.Cpu.exec, Nemu.Cpu.effect, Nemu.Cpu.setReg,
      hsame, hword, stepResult_getElem, Coremark.stepResult_high, Coremark.stepResult_low, hstop]

theorem Simulated.exec (h : Simulated s t) (hmem : call.Agrees mem s.pmem) :
    Simulated (call.nemu s).1 (t.exec mem call) ∧ (call.nemu s).1.pmem = s.pmem := by
  cases call with
  | init => exact ⟨⟨fun _ => rfl, fun _ => rfl, rfl⟩, rfl⟩
  | step state address =>
    rw [DfaCall.nemu_eq]
    exact ⟨⟨h.counters, h.final, h.pending⟩, rfl⟩
  | histogramStep state address =>
    have hlane := stepAt_scanAt mem state address
    have hword : Nemu.numericDfaWordStep (state.setWidth 32) (s.symbolsAt address).1
        (s.symbolsAt address).2 = stepResult (stepAt mem state address) := wordStep_nemu hmem
    rw [DfaCall.nemu_histogramStep hword, Tally.exec, ← hlane.stopped, ← hlane.mask, ← hlane.state]
    have hpending : t.pending.setWidth 32 ||| (stepAt mem state address).mask.setWidth 32 =
        (t.pending ||| (stepAt mem state address).mask).setWidth 32 := (BitVec.setWidth_or).symm
    cases hstop : (stepAt mem state address).stopped with
    | true =>
      refine ⟨⟨?_, ?_, rfl⟩, rfl⟩
      · refine bump_eq (t := { t with pending := 0 }) _ _ ?_ h.counters
        intro k
        have hk : k.toNat < 32 := lt_trans k.isLt (by decide)
        rw [h.pending, hpending, BitVec.getLsbD_setWidth, decide_eq_true hk, Bool.true_and]
      · intro k
        simp only [if_true, Tally.addFinal, Tally.addMask]
        by_cases hk : k = (stepAt mem state address).state
        · subst hk
          rw [Function.update_self, h.final, if_pos rfl, BitVec.ofNat_add]
          rfl
        · rw [Function.update_of_ne hk, h.final, if_neg hk, Nat.add_zero]
    | false =>
      refine ⟨⟨h.counters, h.final, ?_⟩, rfl⟩
      show s.numericDfaPendingMask ||| _ = _
      rw [h.pending, hpending]
      rfl
  | commit mask =>
    rw [DfaCall.nemu_eq]
    exact ⟨⟨bump_eq mask mask (fun _ => rfl) h.counters, h.final, h.pending⟩, rfl⟩
  | read state =>
    rw [DfaCall.nemu_eq]
    exact ⟨⟨h.counters, h.final, h.pending⟩, rfl⟩
  | finalRead state =>
    rw [DfaCall.nemu_eq]
    exact ⟨⟨h.counters, h.final, h.pending⟩, rfl⟩

/-! ## Sequences of calls -/

def rtlAfter (mem : Mem) (calls : List DfaCall) (c : Counts) : Counts :=
  calls.foldl (fun c call => (execute mem call.op c).1) c

def nemuAfter (calls : List DfaCall) (s : Nemu.Cpu) : Nemu.Cpu :=
  calls.foldl (fun s call => (call.nemu s).1) s

def tally (mem : Mem) (calls : List DfaCall) : Tally := calls.foldl (Tally.exec mem) Tally.zero

theorem counted_after (calls : List DfaCall) (h : Counted c t) :
    Counted (rtlAfter mem calls c) (calls.foldl (Tally.exec mem) t) := by
  induction calls generalizing c t with
  | nil => exact h
  | cons call calls ih => exact ih h.exec

theorem simulated_after (calls : List DfaCall) (h : Simulated s t)
    (hmem : ∀ call ∈ calls, call.Agrees mem s.pmem) :
    Simulated (nemuAfter calls s) (calls.foldl (Tally.exec mem) t) ∧
      (nemuAfter calls s).pmem = s.pmem := by
  induction calls generalizing s t with
  | nil => exact ⟨h, rfl⟩
  | cons call calls ih =>
    rcases h.exec (hmem call List.mem_cons_self) with ⟨hnext, hkept⟩
    have hrest : ∀ call' ∈ calls, call'.Agrees mem (call.nemu s).1.pmem := by
      intro call' hc
      rw [hkept]
      exact hmem call' (List.mem_cons_of_mem _ hc)
    rcases ih hnext hrest with ⟨hsim, hpmem⟩
    exact ⟨hsim, hpmem.trans hkept⟩

/-- The state of both machines behind an `init` and further calls. -/
theorem after_init (calls : List DfaCall) (c : Counts)
    (hmem : ∀ call ∈ calls, call.Agrees mem s.pmem) :
    Counted (rtlAfter mem (.init :: calls) c) (tally mem calls) ∧
      Simulated (nemuAfter (.init :: calls) s) (tally mem calls) ∧
      (nemuAfter (.init :: calls) s).pmem = s.pmem := by
  have hcounted : Counted (execute mem DfaCall.init.op c).1 Tally.zero :=
    ⟨fun _ => rfl, fun _ => rfl, rfl⟩
  have hsimulated : Simulated (DfaCall.init.nemu s).1 Tally.zero := ⟨fun _ => rfl, fun _ => rfl, rfl⟩
  exact ⟨counted_after calls hcounted, simulated_after calls hsimulated hmem⟩

/-- No call counts a state more than once. -/
theorem tally_le (calls : List DfaCall) (q : BitVec 3) :
    (tally mem calls).counters q ≤ calls.length ∧ (tally mem calls).final q ≤ calls.length := by
  have hstep : ∀ (t : Tally) (call : DfaCall),
      (t.exec mem call).counters q ≤ t.counters q + 1 ∧ (t.exec mem call).final q ≤ t.final q + 1 := by
    intro t call
    cases call with
    | histogramStep state address =>
      simp only [Tally.exec]
      split_ifs
      · simp only [Tally.addFinal, Tally.addMask]
        split_ifs <;> simp
      · simp
    | commit mask =>
      simp only [Tally.exec, Tally.addMask]
      split_ifs <;> simp
    | _ => simp [Tally.exec, Tally.zero]
  have hrun : ∀ (calls : List DfaCall) (t : Tally),
      (calls.foldl (Tally.exec mem) t).counters q ≤ t.counters q + calls.length ∧
        (calls.foldl (Tally.exec mem) t).final q ≤ t.final q + calls.length := by
    intro calls
    induction calls with
    | nil => intro t; exact ⟨le_rfl, le_rfl⟩
    | cons call calls ih =>
      intro t
      have hnow := hstep t call
      have hrest := ih (t.exec mem call)
      rw [List.foldl_cons, List.length_cons]
      omega
  have hall := hrun calls Tally.zero
  simpa [tally, Tally.zero] using hall

theorem read_rtl (h : Counted c t) (q : BitVec 3) :
    (execute mem (DfaCall.read q).op c).2.toNat = t.counters q % 2 ^ 12 ∧
      (execute mem (DfaCall.finalRead q).op c).2.toNat = t.final q % 2 ^ 16 := by
  have hread : (execute mem (DfaCall.read q).op c).2 = (c.counters (stateIndex q)).setWidth 32 := by
    simp [execute, DfaCall.op, Op.isStep, Coremark.low_setWidth]
  have hfinal : (execute mem (DfaCall.finalRead q).op c).2 =
      (c.final (stateIndex q)).setWidth 32 := by
    simp [execute, DfaCall.op, Op.isStep, Coremark.low_setWidth]
  rw [hread, hfinal, h.counters, h.final]
  simp only [BitVec.toNat_setWidth, BitVec.toNat_ofNat]
  omega

theorem read_nemu (h : Simulated s t) (q : BitVec 3) :
    ((DfaCall.read q).nemu s).2.toNat = t.counters q % 2 ^ 32 ∧
      ((DfaCall.finalRead q).nemu s).2.toNat = t.final q % 2 ^ 32 := by
  have hlow : ∀ q : BitVec 3, (q.setWidth 32).setWidth 3 = q ∧ (q.setWidth 32).ult 8#32 = true := by
    decide
  have hread : ((DfaCall.read q).nemu s).2 = s.numericDfaTransitionCounts q := by
    simp [DfaCall.nemu_eq, DfaCall.loaded, DfaCall.inst, DfaCall.op, Nemu.Cpu.exec, Nemu.Cpu.effect, Nemu.Cpu.setReg,
      hlow]
  have hfinal : ((DfaCall.finalRead q).nemu s).2 = s.numericDfaFinalCounts q := by
    simp [DfaCall.nemu_eq, DfaCall.loaded, DfaCall.inst, DfaCall.op, Nemu.Cpu.exec, Nemu.Cpu.effect, Nemu.Cpu.setReg,
      hlow]
  rw [hread, hfinal, h.counters, h.final, BitVec.toNat_ofNat, BitVec.toNat_ofNat]
  exact ⟨rfl, rfl⟩

/-- Both machines return the same word from a step, whatever they have counted. -/
theorem step_nemu {state : BitVec 3} {address : Word}
    (hmem : Nemu.vaddrRead s.pmem (address &&& ~~~3#32) = mem.wordAt address) :
    (execute mem (DfaCall.step state address).op c).2 = ((DfaCall.step state address).nemu s).2 ∧
      (execute mem (DfaCall.histogramStep state address).op c).2 =
        ((DfaCall.histogramStep state address).nemu s).2 := by
  have hword : Nemu.numericDfaWordStep (state.setWidth 32) (s.symbolsAt address).1
      (s.symbolsAt address).2 = stepResult (stepAt mem state address) := wordStep_nemu hmem
  have hsame : ∀ g, ({ s with gpr := g } : Nemu.Cpu).symbolsAt = s.symbolsAt := fun _ => rfl
  refine ⟨?_, ?_⟩
  · simp [execute, DfaCall.op, Op.isStep, Coremark.low_setWidth, DfaCall.nemu_eq, DfaCall.loaded, DfaCall.inst,
      Nemu.Cpu.exec, Nemu.Cpu.effect, Nemu.Cpu.setReg, hsame, hword]
  · cases hstop : (stepAt mem state address).stopped <;>
      simp [execute, DfaCall.op, Op.isStep, Coremark.low_setWidth, DfaCall.nemu_eq, DfaCall.loaded, DfaCall.inst,
        Nemu.Cpu.exec, Nemu.Cpu.effect, Nemu.Cpu.setReg, hsame, hword, stepResult_getElem, hstop]

/-! ## The contract -/

/-- The word that a call can return from the controller. -/
def DfaCall.Returns (mem : Mem) (call : DfaCall) (r : Regs) (v : Word) : Prop :=
  ∃ last, Executes mem call.op r last v

/-- Behind calls that began when the controller was idle. -/
theorem DfaCall.Returns.eq {calls : List DfaCall} {r r' : Regs} {v : Word}
    (h : call.Returns mem r' v) (hidle : r.xdfaWordState = .idle)
    (hrun : Runs mem (calls.map DfaCall.op) r r') :
    v = (execute mem call.op (rtlAfter mem calls (counts r))).2 := by
  obtain ⟨hcounts, hleft⟩ := hrun.counts_eq hidle
  obtain ⟨last, hex⟩ := h
  rw [List.foldl_map] at hcounts
  rw [rtlAfter, ← hcounts, ← (hex.eq_execute hleft).1]

/-- Behind an `init` and any calls, whatever their delays and whatever other instructions run
between them, every call returns.  Both machines return the same word from every step, and
the same count exactly as long as fewer than 4096 counts of the transition, or fewer than
65536 of the final state, have been made. -/
theorem counter_reads_iff (mem : Mem) (s : Nemu.Cpu) (calls : List DfaCall)
    (hmem : ∀ call ∈ calls, call.Agrees mem s.pmem) (hlength : calls.length < 2 ^ 32)
    (q : BitVec 3) (r r' : Regs) (hidle : r.xdfaWordState = .idle)
    (hrun : Runs mem ((DfaCall.init :: calls).map DfaCall.op) r r') :
    (∀ call : DfaCall, ∃ v, call.Returns mem r' v) ∧
      (∀ state address v, (DfaCall.step state address).Agrees mem s.pmem →
        ((DfaCall.step state address).Returns mem r' v →
            v = ((DfaCall.step state address).nemu (nemuAfter (.init :: calls) s)).2) ∧
          ((DfaCall.histogramStep state address).Returns mem r' v →
            v = ((DfaCall.histogramStep state address).nemu (nemuAfter (.init :: calls) s)).2)) ∧
      (∀ v, (DfaCall.read q).Returns mem r' v →
        (v = ((DfaCall.read q).nemu (nemuAfter (.init :: calls) s)).2 ↔
          (tally mem calls).counters q < 2 ^ 12)) ∧
      (∀ v, (DfaCall.finalRead q).Returns mem r' v →
        (v = ((DfaCall.finalRead q).nemu (nemuAfter (.init :: calls) s)).2 ↔
          (tally mem calls).final q < 2 ^ 16)) := by
  rcases after_init calls (counts r) hmem with ⟨hcounted, hsimulated, hpmem⟩
  have hle := @tally_le mem calls q
  have hrtl := @read_rtl mem _ _ hcounted q
  have hnemu := read_nemu hsimulated q
  refine ⟨fun call => ?_, ?_, ?_, ?_⟩
  · obtain ⟨last, v, hex⟩ := executes_exists mem call.op r'
    exact ⟨v, last, hex⟩
  · intro state address v hagree
    rw [← hpmem] at hagree
    have hsame := @step_nemu mem (rtlAfter mem (.init :: calls) (counts r)) _ state address hagree
    exact ⟨fun h => (h.eq hidle hrun).trans hsame.1, fun h => (h.eq hidle hrun).trans hsame.2⟩
  · intro v h
    rw [h.eq hidle hrun, ← BitVec.toNat_inj, hrtl.1, hnemu.1]
    omega
  · intro v h
    rw [h.eq hidle hrun, ← BitVec.toNat_inj, hrtl.2, hnemu.2]
    omega

/-- Memory full of a byte that is a token of its own. -/
def invalidText : Mem := fun _ => 0x78787878#32

def invalidCpu : Nemu.Cpu := ⟨0, fun _ => 0, fun _ => 0x78#8, 0, fun _ => 0, fun _ => 0, 0⟩

/-- The controller after reset. -/
def idleController : Regs := ⟨fun _ => 0, fun _ => 0, 0, .idle, 0, 0, 0, 0, 0, 0, 0, 0⟩

theorem agrees_invalidText (call : DfaCall) : call.Agrees invalidText invalidCpu.pmem := by
  have hword : ofBytes (fun _ => 0x78#8) = 0x78787878#32 := by decide
  cases call with
  | step _ _ => exact hword
  | histogramStep _ _ => exact hword
  | _ => trivial

theorem counter_reads_iff_two :
    let calls := [DfaCall.histogramStep 0 0x80100000#32, DfaCall.histogramStep 0 0x80100001#32]
    (∀ call ∈ calls, call.Agrees invalidText invalidCpu.pmem) ∧
      ∃ r', Runs invalidText ((DfaCall.init :: calls).map DfaCall.op) idleController r' ∧
        (DfaCall.read 0).Returns invalidText r'
          ((DfaCall.read 0).nemu (nemuAfter (.init :: calls) invalidCpu)).2 := by
  intro calls
  have hmem : ∀ call ∈ calls, call.Agrees invalidText invalidCpu.pmem :=
    fun call _ => agrees_invalidText call
  obtain ⟨r', hrun⟩ := runs_exists invalidText ((DfaCall.init :: calls).map DfaCall.op) idleController
  have hiff := counter_reads_iff invalidText invalidCpu calls hmem (by decide) 0 _ r' rfl hrun
  obtain ⟨v, hv⟩ := hiff.1 (.read 0)
  have hcount : (tally invalidText calls).counters 0 < 2 ^ 12 :=
    lt_of_le_of_lt (@tally_le invalidText calls 0).1 (by decide)
  exact ⟨hmem, r', hrun, (hiff.2.2.1 v hv).mpr hcount ▸ hv⟩

/-- One pass over the first bytes of the data region, a token each. -/
def invalidTokens (n : ℕ) : List DfaCall :=
  (List.range n).map (fun k => .histogramStep 0 (0x80100000#32 + BitVec.ofNat 32 k))

/-- Each of the tokens is counted in the start state. -/
theorem tally_invalidTokens (n : ℕ) :
    (tally invalidText (invalidTokens n)).counters 0 = n ∧
      (tally invalidText (invalidTokens n)).pending = 0#8 := by
  induction n with
  | zero => exact ⟨rfl, rfl⟩
  | succ n ih =>
    rcases ih with ⟨hcount, hpending⟩
    have hscan : ∀ address, scanAt invalidText 0#3 address = ⟨1, 3, 1, true⟩ := by
      have hoffset : ∀ offset : BitVec 2, (Scan.start 0#3).bytes
          (symbols (0x78787878#32 >>> (8 * offset.toNat)) (4 - offset.toNat)) =
            ⟨1, 3, 1, true⟩ := by decide +kernel
      intro address
      exact hoffset (address.extractLsb' 0 2)
    have hlast : tally invalidText (invalidTokens (n + 1)) =
        (tally invalidText (invalidTokens n)).exec invalidText
          (.histogramStep 0 (0x80100000#32 + BitVec.ofNat 32 n)) := by
      rw [tally, invalidTokens, List.range_succ, List.map_append, List.foldl_append]
      rfl
    rw [hlast]
    simpa [Tally.exec, hscan, Tally.addFinal, Tally.addMask, hpending] using hcount

/-- After 4096 such tokens the accelerator reads zero. -/
theorem transition_count_lost :
    (∀ call ∈ invalidTokens 4096, call.Agrees invalidText invalidCpu.pmem) ∧
      (∃ r', Runs invalidText ((DfaCall.init :: invalidTokens 4096).map DfaCall.op)
          idleController r' ∧ (DfaCall.read 0).Returns invalidText r' 0#32) ∧
      ((DfaCall.read 0).nemu (nemuAfter (.init :: invalidTokens 4096) invalidCpu)).2 = 4096#32 := by
  have hmem : ∀ call ∈ invalidTokens 4096, call.Agrees invalidText invalidCpu.pmem :=
    fun call _ => agrees_invalidText call
  rcases after_init (invalidTokens 4096) (counts idleController) hmem with ⟨hcounted, hsimulated, _⟩
  have hcount := (tally_invalidTokens 4096).1
  obtain ⟨r', hrun⟩ := runs_exists invalidText
    ((DfaCall.init :: invalidTokens 4096).map DfaCall.op) idleController
  obtain ⟨last, v, hex⟩ := executes_exists invalidText (DfaCall.read 0).op r'
  have hzero : v = 0#32 := by
    rw [DfaCall.Returns.eq ⟨last, hex⟩ rfl hrun]
    apply BitVec.eq_of_toNat_eq
    rw [(read_rtl hcounted 0).1, hcount]
    rfl
  refine ⟨hmem, ⟨r', hrun, last, hzero ▸ hex⟩, ?_⟩
  apply BitVec.eq_of_toNat_eq
  rw [(read_nemu hsimulated 0).1, hcount]
  rfl

end Soc
end Jyd
