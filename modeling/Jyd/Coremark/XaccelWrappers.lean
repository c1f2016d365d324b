import Jyd.Core.Exu.DfaExecution
import Jyd.Coremark.CoreState
import Mathlib.Data.List.Forall2

/-!
# XaccelWrappers — scanning a block with the accelerator

The wrappers of the word step and of the histogram step: a loop of accelerator
instructions per token, and the loop of the benchmark over the tokens of a block.  Both
split a block exactly as `core_state_transition` does.
-/

namespace Jyd
namespace Coremark

open Hdl Jyd.Core Jyd.Core.NumericTokenDfa Jyd.Core.NumericDfa

/-! ## The wrappers -/

/-- `.insn r 0x5b, 5, 0, result, state, str`. -/
def xdfa4Step (state str : Word) : Op := ⟨5, 0, state, str⟩

/-- `.insn r 0x5b, 5, 1, result, state, str`. -/
def xdfa4hStep (state str : Word) : Op := ⟨5, 1, state, str⟩

/-- `.insn r 0x5b, 3, 0, x0, mask, x0`. -/
def xdfacntCommit (mask : Word) : Op := ⟨3, 0, mask, 0⟩

/-- What one call did: the pointer before and behind, the state, the mask that went into
the counters, and the counters on both sides. -/
structure Scanned where
  start : Word
  str : Word
  state : Word
  mask : Word
  before : Counts
  after : Counts

/-- The loop of `__xaccel_xdfa4_transition`; `none` when the fuel does not suffice. -/
def xdfa4Loop (mem : Mem) : ℕ → Counts → (str state mask : Word) → Option (Counts × Word × Word × Word)
  | 0, _, _, _, _ => none
  | fuel + 1, c, str, state, mask =>
    let (c, result) := execute mem (xdfa4Step state str) c
    let state := result &&& 7#32
    let str := str + ((result >>> 3) &&& 7#32)
    let mask := mask ||| ((result >>> 7) &&& 0xff#32)
    if result &&& (1#32 <<< 6) != 0#32 then some (c, str, state, mask)
    else xdfa4Loop mem fuel c str state mask

def xdfa4Transition (mem : Mem) (fuel : ℕ) (c : Counts) (instr : Word) : Option Scanned :=
  (xdfa4Loop mem fuel c instr 0 0).map fun (c', str, state, mask) =>
    ⟨instr, str, state, mask, c, (execute mem (xdfacntCommit mask) c').1⟩

/-- The loop of `__xaccel_xdfa4h_transition`.  The mask is the one that the controller
commits with the last step. -/
def xdfa4hLoop (mem : Mem) : ℕ → Counts → (str state : Word) → Option (Counts × Word × Word × Word)
  | 0, _, _, _ => none
  | fuel + 1, c, str, state =>
    let (c', result) := execute mem (xdfa4hStep state str) c
    let state := result &&& 7#32
    let str := str + ((result >>> 3) &&& 7#32)
    if result &&& (1#32 <<< 6) != 0#32 then
      some (c', str, state, c.pending.setWidth 32 ||| ((result >>> 7) &&& 0xff#32))
    else xdfa4hLoop mem fuel c' str state

def xdfa4hTransition (mem : Mem) (fuel : ℕ) (c : Counts) (instr : Word) : Option Scanned :=
  (xdfa4hLoop mem fuel c instr 0).map fun (c', str, state, mask) => ⟨instr, str, state, mask, c, c'⟩

/-- `while (*p != 0) transition(&p)`. -/
def scanBlock (mem : Mem) (transition : Counts → Word → Option Scanned) :
    ℕ → Counts → Word → Option (List Scanned)
  | 0, _, _ => none
  | fuel + 1, c, p =>
    if mem.byteAt p = 0#8 then some []
    else (transition c p).bind fun t => (scanBlock mem transition fuel t.after t.str).map (t :: ·)

/-- The same loop around `core_state_transition`, with the counters before each token. -/
def coreBlock : ℕ → List (BitVec 8) → TransitionCount → Option (List (TransitionCount × Token))
  | 0, _, _ => none
  | fuel + 1, block, n =>
    if block = [] then some []
    else
      let t := coreStateTransition block n
      (coreBlock fuel (block.drop t.consumed) t.count).map ((n, t) :: ·)

/-! ## Fields of the result -/

variable {l : Lane}

theorem stepResult_low : (stepResult l).setWidth 3 = l.state := by
  apply BitVec.eq_of_getLsbD_eq
  intro n hn
  simp only [stepResult, BitVec.getLsbD_append, BitVec.getLsbD_setWidth]
  grind

theorem stepResult_middle : (stepResult l >>> 3).setWidth 3 = l.consumed := by
  apply BitVec.eq_of_getLsbD_eq
  intro n hn
  simp only [stepResult, BitVec.getLsbD_ushiftRight, BitVec.getLsbD_append,
    BitVec.getLsbD_setWidth]
  grind

theorem stepResult_high : stepResult l >>> 7 = l.mask.setWidth 32 := by
  apply BitVec.eq_of_getLsbD_eq
  intro n hn
  simp only [stepResult, BitVec.getLsbD_ushiftRight, BitVec.getLsbD_append, BitVec.getLsbD_setWidth]
  grind

theorem stepResult_bit : (stepResult l).getLsbD 6 = l.stopped := by
  simp only [stepResult, BitVec.getLsbD_append]
  grind

/-- The masks of the wrappers keep the low bits of a word. -/
theorem and_low_bits {k : ℕ} (x : Word) :
    x &&& (BitVec.allOnes k).setWidth 32 = (x.setWidth k).setWidth 32 := by
  apply BitVec.eq_of_getLsbD_eq
  intro n hn
  simp only [BitVec.getLsbD_and, BitVec.getLsbD_setWidth, BitVec.getLsbD_allOnes]
  grind

theorem stepResult_state : stepResult l &&& 7#32 = l.state.setWidth 32 := by
  have hmask : 7#32 = (BitVec.allOnes 3).setWidth 32 := by decide
  rw [hmask, and_low_bits, stepResult_low]

theorem stepResult_consumed : (stepResult l >>> 3) &&& 7#32 = l.consumed.setWidth 32 := by
  have hmask : 7#32 = (BitVec.allOnes 3).setWidth 32 := by decide
  rw [hmask, and_low_bits, stepResult_middle]

theorem stepResult_mask : (stepResult l >>> 7) &&& 0xff#32 = l.mask.setWidth 32 := by
  have hmask : 0xff#32 = (BitVec.allOnes 8).setWidth 32 := by decide
  have hkept : (l.mask.setWidth 32).setWidth 8 = l.mask := by simp
  rw [hmask, and_low_bits, stepResult_high, hkept]

theorem stepResult_stopped : (stepResult l &&& (1#32 <<< 6) != 0#32) = l.stopped := by
  have hone : stepResult l &&& (1#32 <<< 6) =
      (BitVec.ofBool ((stepResult l).getLsbD 6)).setWidth 32 <<< 6 := by
    apply BitVec.eq_of_getLsbD_eq
    intro n hn
    simp only [BitVec.getLsbD_and, BitVec.getLsbD_shiftLeft, BitVec.getLsbD_setWidth,
      BitVec.getLsbD_one]
    grind
  rw [hone, stepResult_bit]
  cases l.stopped <;> decide

/-! ## A word of the block -/

/-- A zero-terminated block at an address. -/
structure Holds (mem : Mem) (str : Word) (block : List (BitVec 8)) : Prop where
  nonzero : 0#8 ∉ block
  bytes : ∀ k, (h : k < (block ++ [0#8]).length) →
    mem.byteAt (str + BitVec.ofNat 32 k) = (block ++ [0#8])[k]

/-- The bytes from an address to the end of its word. -/
def left (str : Word) : ℕ := 4 - (str.extractLsb' 0 2).toNat

variable {mem : Mem} {str : Word} {block : List (BitVec 8)}

theorem left_pos : 0 < left str ∧ left str ≤ 4 := by
  have hlt := (str.extractLsb' 0 2).isLt
  simp only [left]
  omega

theorem available_eq : (4#3 - (str.extractLsb' 0 2).setWidth 3).toNat = left str := by
  have hlt := (str.extractLsb' 0 2).isLt
  have hwide : ((str.extractLsb' 0 2).setWidth 3).toNat = (str.extractLsb' 0 2).toNat := by
    rw [BitVec.toNat_setWidth, Nat.mod_eq_of_lt (by omega)]
  have hle : (str.extractLsb' 0 2).setWidth 3 ≤ 4#3 := by
    rw [BitVec.le_def, hwide]
    exact Nat.le_of_lt hlt
  rw [BitVec.toNat_sub_of_le hle, hwide]
  rfl

/-- The symbols that the controller sees are the bytes behind the address. -/
theorem byteOf_shifted {k : ℕ} (hk : k < left str) :
    byteOf (mem.wordAt str >>> (8 * (str.extractLsb' 0 2).toNat)) k =
      mem.byteAt (str + BitVec.ofNat 32 k) := by
  have hoff : (str.extractLsb' 0 2).toNat = str.toNat % 4 := by
    rw [BitVec.extractLsb'_toNat, Nat.shiftRight_zero]
  have hlt := str.isLt
  have hsum : (str + BitVec.ofNat 32 k).toNat = str.toNat + k := by
    rw [left, hoff] at hk
    rw [BitVec.toNat_add, BitVec.toNat_ofNat]
    omega
  rw [left, hoff] at hk
  -- adding `k` stays inside the word
  have hword : (str + BitVec.ofNat 32 k).extractLsb' 2 30 = str.extractLsb' 2 30 := by
    apply BitVec.eq_of_toNat_eq
    rw [BitVec.extractLsb'_toNat, BitVec.extractLsb'_toNat, hsum, Nat.shiftRight_eq_div_pow,
      Nat.shiftRight_eq_div_pow]
    omega
  have hlane : ((str + BitVec.ofNat 32 k).extractLsb' 0 2).toNat = str.toNat % 4 + k := by
    rw [BitVec.extractLsb'_toNat, Nat.shiftRight_zero, hsum]
    omega
  rw [Mem.byteAt, hlane, hoff, Mem.wordAt, Mem.wordAt, hword]
  apply BitVec.eq_of_getLsbD_eq
  intro n hn
  rw [getLsbD_byteOf, getLsbD_byteOf, BitVec.getLsbD_ushiftRight]
  congr 2
  omega

theorem Holds.map_range (h : Holds mem str block) {n : ℕ} (hn : n ≤ block.length + 1) :
    (List.range n).map (fun k => mem.byteAt (str + BitVec.ofNat 32 k)) = (block ++ [0#8]).take n := by
  apply List.ext_getElem
  · simp [hn]
  · intro k hk₁ hk₂
    have hk : k < (block ++ [0#8]).length := Nat.lt_of_lt_of_le hk₂ (List.length_take_le' _ _)
    rw [List.getElem_map, List.getElem_range, h.bytes k hk, List.getElem_take]

/-- Over a block the word step scans what the block has in this word. -/
theorem stepAt_tracks (h : Holds mem str block) (state : BitVec 3) :
    (stepAt mem state str).Tracks
      ((Scan.start state).bytes ((block ++ [0#8]).take (left str))) false := by
  have htracks := @wordStep_tracks state (mem.wordAt str >>> (8 * (str.extractLsb' 0 2).toNat))
    (4#3 - (str.extractLsb' 0 2).setWidth 3)
    (by rw [available_eq]; exact left_pos.1) (by rw [available_eq]; exact left_pos.2)
  rw [available_eq] at htracks
  have hsymbols : symbols (mem.wordAt str >>> (8 * (str.extractLsb' 0 2).toNat)) (left str) =
      (List.range (left str)).map (fun k => mem.byteAt (str + BitVec.ofNat 32 k)) := by
    apply List.map_congr_left
    intro k hk
    exact byteOf_shifted (List.mem_range.mp hk)
  rw [hsymbols] at htracks
  by_cases hn : left str ≤ block.length + 1
  · rw [h.map_range hn] at htracks
    exact htracks
  · -- the word goes on behind the zero, but the scan does not
    have hsum : left str = (block.length + 1) + (left str - (block.length + 1)) := by omega
    rw [hsum, List.range_add, List.map_append, h.map_range le_rfl,
      List.take_of_length_le (by simp), List.append_assoc, List.singleton_append,
      Scan.bytes_append_zero] at htracks
    rw [List.take_of_length_le (by simp; omega)]
    exact htracks

/-- What follows a word of the block is a block again. -/
theorem Holds.drop (h : Holds mem str block) {n : ℕ} (hn : n ≤ block.length) :
    Holds mem (str + BitVec.ofNat 32 n) (block.drop n) := by
  refine ⟨fun hmem => h.nonzero (List.mem_of_mem_drop hmem), ?_⟩
  intro k hk
  have hk' : n + k < (block ++ [0#8]).length := by
    simp only [List.length_append, List.length_drop, List.length_singleton] at hk ⊢
    omega
  have haddr : str + BitVec.ofNat 32 n + BitVec.ofNat 32 k = str + BitVec.ofNat 32 (n + k) := by
    rw [BitVec.add_assoc, BitVec.ofNat_add]
  rw [haddr, h.bytes (n + k) hk']
  simp only [← List.drop_append_of_le_length hn, List.getElem_drop]

/-! ## One token -/

theorem low_setWidth (state : BitVec 3) : (state.setWidth 32).extractLsb' 0 3 = state := by
  apply BitVec.eq_of_getLsbD_eq
  intro n hn
  simp [hn]
  omega

theorem execute_xdfa4Step {c : Counts} {state : BitVec 3} :
    execute mem (xdfa4Step (state.setWidth 32) str) c = (c, stepResult (stepAt mem state str)) := by
  simp [execute, xdfa4Step, Op.isStep, Op.isHistogram, low_setWidth]

theorem execute_xdfa4hStep {c : Counts} {state : BitVec 3} :
    execute mem (xdfa4hStep (state.setWidth 32) str) c =
      (c.histogram (stepAt mem state str), stepResult (stepAt mem state str)) := by
  simp [execute, xdfa4hStep, Op.isStep, Op.isHistogram, low_setWidth]

/-- The pointer moves by the bytes of the token that lie in this word. -/
theorem stepAt_consumed (h : Holds mem str block) (state : BitVec 3) :
    (stepAt mem state str).consumed.setWidth 32 =
      BitVec.ofNat 32 ((Scan.start state).bytes ((block ++ [0#8]).take (left str))).consumed := by
  have hle : ((Scan.start state).bytes ((block ++ [0#8]).take (left str))).consumed ≤ 4 := by
    calc ((Scan.start state).bytes ((block ++ [0#8]).take (left str))).consumed
        ≤ 0 + ((block ++ [0#8]).take (left str)).length := Scan.consumed_bytes_le
      _ ≤ left str := by
          rw [Nat.zero_add]
          exact List.length_take_le _ _
      _ ≤ 4 := left_pos.2
  rw [(stepAt_tracks h state).consumed]
  apply BitVec.eq_of_toNat_eq
  rw [BitVec.toNat_setWidth, BitVec.toNat_ofNat, BitVec.toNat_ofNat]
  omega

/-- Inside a word that the token leaves, the rest of it is a token of the rest. -/
structure GoesOn (mem : Mem) (q : BitVec 3) (str : Word) (block : List (BitVec 8)) : Prop where
  pos : 0 < left str
  le : left str ≤ block.length
  consumed : (stepAt mem q str).consumed.setWidth 32 = BitVec.ofNat 32 (left str)
  rest : Holds mem (str + BitVec.ofNat 32 (left str)) (block.drop (left str))
  state : (Scan.token q block).state =
    (Scan.token (stepAt mem q str).state (block.drop (left str))).state
  mask : (Scan.token q block).mask = (stepAt mem q str).mask |||
    (Scan.token (stepAt mem q str).state (block.drop (left str))).mask
  length : (Scan.token q block).consumed =
    left str + (Scan.token (stepAt mem q str).state (block.drop (left str))).consumed

theorem goesOn (h : Holds mem str block) {state : BitVec 3}
    (hgo : (stepAt mem state str).stopped = false) : GoesOn mem state str block := by
  have htracks := stepAt_tracks h state
  rw [htracks.stopped] at hgo
  rcases Scan.token_of_not_stopped hgo with ⟨hle, hcons, htoken⟩
  refine ⟨left_pos.1, hle, ?_, h.drop hle, ?_, ?_, ?_⟩
  · rw [stepAt_consumed h, hcons]
  · rw [htoken, htracks.state]
    rfl
  · rw [htoken, htracks.mask, htracks.state]
    rfl
  · rw [htoken, htracks.state]
    exact congrArg (· + _) hcons

/-- The last word of a token. -/
theorem ends (h : Holds mem str block) {state : BitVec 3}
    (hstop : (stepAt mem state str).stopped = true) :
    (stepAt mem state str).state = (Scan.token state block).state ∧
      (stepAt mem state str).mask = (Scan.token state block).mask ∧
      (stepAt mem state str).consumed.setWidth 32 =
        BitVec.ofNat 32 (Scan.token state block).consumed := by
  have htracks := stepAt_tracks h state
  rw [htracks.stopped] at hstop
  rw [Scan.token_of_stopped hstop]
  exact ⟨htracks.state, htracks.mask, stepAt_consumed h state⟩

theorem setWidth_or (x y : BitVec 8) :
    x.setWidth 32 ||| y.setWidth 32 = (x ||| y).setWidth 32 := by
  rw [BitVec.setWidth_or]

/-- From any state of a token, the word steps scan the rest of it. -/
theorem xdfa4Loop_eq {c : Counts} {fuel : ℕ} {state : BitVec 3} {mask : BitVec 8}
    (h : Holds mem str block) (hfuel : block.length < fuel) :
    xdfa4Loop mem fuel c str (state.setWidth 32) (mask.setWidth 32) =
      some (c, str + BitVec.ofNat 32 (Scan.token state block).consumed,
        (Scan.token state block).state.setWidth 32,
        (mask ||| (Scan.token state block).mask).setWidth 32) := by
  induction fuel generalizing str block state mask with
  | zero => exact absurd hfuel (Nat.not_lt_zero _)
  | succ fuel ih =>
    simp only [xdfa4Loop, execute_xdfa4Step, stepResult_state, stepResult_consumed,
      stepResult_mask, stepResult_stopped, setWidth_or]
    cases hstop : (stepAt mem state str).stopped with
    | true =>
      rcases ends h hstop with ⟨hstate, hmask, hcons⟩
      rw [if_pos rfl, hstate, hmask, hcons]
    | false =>
      have hgo := goesOn h hstop
      have hshort : (block.drop (left str)).length < fuel := by
        have hpos := hgo.pos
        have hle := hgo.le
        rw [List.length_drop]
        omega
      rw [if_neg Bool.false_ne_true, hgo.consumed, ih hgo.rest hshort, hgo.length, hgo.state,
        hgo.mask, BitVec.ofNat_add, BitVec.add_assoc, BitVec.or_assoc]

/-- The same for the histogram steps, which collect the mask in the pending register. -/
theorem xdfa4hLoop_eq {c : Counts} {fuel : ℕ} {state : BitVec 3}
    (h : Holds mem str block) (hfuel : block.length < fuel) :
    xdfa4hLoop mem fuel c str (state.setWidth 32) =
      some ((({ c with pending := 0 } : Counts).addMask
            (c.pending ||| (Scan.token state block).mask)).addFinal (Scan.token state block).state,
        str + BitVec.ofNat 32 (Scan.token state block).consumed,
        (Scan.token state block).state.setWidth 32,
        (c.pending ||| (Scan.token state block).mask).setWidth 32) := by
  induction fuel generalizing str block state c with
  | zero => exact absurd hfuel (Nat.not_lt_zero _)
  | succ fuel ih =>
    simp only [xdfa4hLoop, execute_xdfa4hStep, stepResult_state, stepResult_consumed,
      stepResult_mask, stepResult_stopped, setWidth_or]
    cases hstop : (stepAt mem state str).stopped with
    | true =>
      rcases ends h hstop with ⟨hstate, hmask, hcons⟩
      rw [if_pos rfl, hcons, Counts.histogram, if_pos hstop, hstate, hmask]
    | false =>
      have hgo := goesOn h hstop
      have hshort : (block.drop (left str)).length < fuel := by
        have hpos := hgo.pos
        have hle := hgo.le
        rw [List.length_drop]
        omega
      have hcounts : c.histogram (stepAt mem state str) =
          { c with pending := c.pending ||| (stepAt mem state str).mask } := by
        rw [Counts.histogram, if_neg (by simp [hstop])]
      rw [if_neg Bool.false_ne_true, hgo.consumed, hcounts, ih hgo.rest hshort, hgo.length,
        hgo.state, hgo.mask, BitVec.ofNat_add, BitVec.add_assoc, BitVec.or_assoc]

/-! ## Whole blocks -/

/-- A call of a wrapper and a call of `core_state_transition` on the same token: the same
bytes, the same final state, and a mask whose bits are the counters that were incremented,
each by one. -/
structure SameToken (t : Scanned) (r : TransitionCount × Token) : Prop where
  str : t.str = t.start + BitVec.ofNat 32 r.2.consumed
  state : t.state = r.2.state.code.setWidth 32
  count : ∀ s, r.2.count s = r.1 s + if t.mask.getLsbD s.code.toNat then 1 else 0

variable {c : Counts} {n : TransitionCount} {fuel : ℕ}

theorem sameToken (hz : 0#8 ∉ block) {before after : Counts} :
    SameToken
      ⟨str, str + BitVec.ofNat 32 (Scan.token 0#3 block).consumed,
        (Scan.token 0#3 block).state.setWidth 32, (Scan.token 0#3 block).mask.setWidth 32,
        before, after⟩
      (n, coreStateTransition block n) := by
  have hstart : CoreState.start ≠ .invalid := by decide
  rcases scan_eq_token (n := n) hz hstart 0 with ⟨hcons, hstate, hcount, _⟩
  refine ⟨?_, ?_, ?_⟩
  · rw [coreStateTransition, hcons, Nat.zero_add]
    rfl
  · rw [coreStateTransition, hstate]
    rfl
  · intro s
    have hlt : s.code.toNat < 8 := s.code.isLt
    have hbit : ((Scan.token 0#3 block).mask.setWidth 32).getLsbD s.code.toNat =
        (Scan.token 0#3 block).mask.getLsbD s.code.toNat := by
      rw [BitVec.getLsbD_setWidth, decide_eq_true (by omega), Bool.true_and]
    rw [hbit]
    exact hcount s

/-- What the block loop needs of a wrapper: on every block it returns the token of
`core_state_transition`, `Effect` holds of the call, and `Ready` holds again behind it. -/
structure Scans (mem : Mem) (transition : Counts → Word → Option Scanned) (fuel : ℕ)
    (Ready : Counts → Prop) (Effect : Scanned → Prop) : Prop where
  token : ∀ {c str block}, Ready c → Holds mem str block → block.length < fuel →
    ∃ t, transition c str = some t ∧ t.start = str ∧ t.before = c ∧ Effect t ∧ Ready t.after ∧
      ∀ n, SameToken t (n, coreStateTransition block n)

theorem xdfa4_scans : Scans mem (xdfa4Transition mem fuel) fuel (fun _ => True)
    (fun t => t.after = t.before.addMask t.mask) := by
  refine ⟨?_⟩
  intro c str block _ h hfuel
  have hloop := @xdfa4Loop_eq mem str block c fuel 0#3 0#8 h hfuel
  have hzero : (0#3).setWidth 32 = (0 : Word) ∧ (0#8).setWidth 32 = (0 : Word) := ⟨rfl, rfl⟩
  rw [BitVec.zero_or, hzero.1, hzero.2] at hloop
  refine ⟨_, by rw [xdfa4Transition, hloop]; rfl, rfl, rfl, ?_, trivial, fun n => sameToken h.nonzero⟩
  -- the collected mask goes into the counters with the commit instruction
  simp [execute, xdfacntCommit, Op.isStep]

theorem xdfa4h_scans : Scans mem (xdfa4hTransition mem fuel) fuel (fun c => c.pending = 0#8)
    (fun t => t.after = (t.before.addMask t.mask).addFinal (t.state.extractLsb' 0 3)) := by
  refine ⟨?_⟩
  intro c str block hpending h hfuel
  have hloop := @xdfa4hLoop_eq mem str block c fuel 0#3 h hfuel
  have hzero : (0#3).setWidth 32 = (0 : Word) := rfl
  have hclear : ({ c with pending := 0 } : Counts) = c := by
    ext1 <;> simp [hpending]
  rw [hpending, BitVec.zero_or, hzero, hclear] at hloop
  refine ⟨_, by rw [xdfa4hTransition, hloop]; rfl, rfl, rfl, ?_, ?_, fun n => sameToken h.nonzero⟩
  swap
  · exact hpending
  have hmask : c.addMask ((Scan.token 0#3 block).mask.setWidth 32) =
      c.addMask (Scan.token 0#3 block).mask := by
    ext1
    · funext s
      have hbit : ((Scan.token 0#3 block).mask.setWidth 32).getLsbD s =
          (Scan.token 0#3 block).mask.getLsbD s := by
        rw [BitVec.getLsbD_setWidth, decide_eq_true (by omega), Bool.true_and]
      simp only [Counts.addMask, hbit]
    · rfl
    · rfl
  rw [hmask, low_setWidth]

theorem Holds.byteAt_eq_zero (h : Holds mem str block) : mem.byteAt str = 0#8 ↔ block = [] := by
  have hfirst := h.bytes 0 (by simp)
  rw [show str + BitVec.ofNat 32 0 = str from BitVec.add_zero str] at hfirst
  rw [hfirst]
  cases block with
  | nil => simp
  | cons b bs =>
    have hb : b ≠ 0#8 := fun heq => h.nonzero (heq ▸ List.mem_cons_self)
    simp [hb]

/-- The tokens of a block, one after the other. -/
theorem scanBlock_eq {transition : Counts → Word → Option Scanned} {limit : ℕ}
    {Ready : Counts → Prop} {Effect : Scanned → Prop} (hscans : Scans mem transition limit Ready Effect)
    (hready : Ready c) (h : Holds mem str block) (hlimit : block.length < limit)
    (hfuel : block.length < fuel) :
    ∃ ts rs, scanBlock mem transition fuel c str = some ts ∧ coreBlock fuel block n = some rs ∧
      List.Forall₂ SameToken ts rs ∧ ∀ t ∈ ts, Effect t := by
  induction fuel generalizing c str block n with
  | zero => exact absurd hfuel (Nat.not_lt_zero _)
  | succ fuel ih =>
    by_cases hempty : block = []
    · refine ⟨[], [], ?_, ?_, .nil, by simp⟩
      · rw [scanBlock, if_pos (h.byteAt_eq_zero.mpr hempty)]
      · rw [coreBlock, if_pos hempty]
    rcases hscans.token hready h hlimit with ⟨t, ht, hstart, _, heffect, hready', hsame⟩
    have hpos := consumed_pos (n := n) hempty
    have hle : (coreStateTransition block n).consumed ≤ block.length := by
      have hscan := @scan_consumed_le n .start block 0
      rwa [Nat.zero_add] at hscan
    have hnext : Holds mem t.str (block.drop (coreStateTransition block n).consumed) := by
      rw [(hsame n).str, hstart]
      exact h.drop hle
    have hshort : (block.drop (coreStateTransition block n).consumed).length < block.length := by
      rw [List.length_drop]
      omega
    rcases ih (n := (coreStateTransition block n).count) hready' hnext (by omega) (by omega) with
      ⟨ts, rs, hts, hrs, hall, heffects⟩
    refine ⟨t :: ts, (n, coreStateTransition block n) :: rs, ?_, ?_, .cons (hsame n) hall, ?_⟩
    · rw [scanBlock, if_neg (fun hz => hempty (h.byteAt_eq_zero.mp hz)), ht, Option.bind_some, hts]
      rfl
    · simp only [coreBlock, if_neg hempty, hrs, Option.map_some]
    · intro u hu
      rcases List.mem_cons.mp hu with rfl | hu
      · exact heffect
      · exact heffects u hu

/-- At every alignment, both wrappers split a zero-terminated block into the tokens of
`core_state_transition`; the counters take the mask, and the histogram form the final state. -/
theorem scanBlock_tokens (h : Holds mem str block) (hpending : c.pending = 0#8)
    (hfuel : block.length < fuel) (n : TransitionCount) :
    ∃ ts hs rs, scanBlock mem (xdfa4Transition mem fuel) fuel c str = some ts ∧
      scanBlock mem (xdfa4hTransition mem fuel) fuel c str = some hs ∧
      coreBlock fuel block n = some rs ∧
      List.Forall₂ SameToken ts rs ∧ List.Forall₂ SameToken hs rs ∧
      (∀ t ∈ ts, t.after = t.before.addMask t.mask) ∧
      ∀ t ∈ hs, t.after = (t.before.addMask t.mask).addFinal (t.state.extractLsb' 0 3) := by
  rcases scanBlock_eq (n := n) xdfa4_scans (c := c) trivial h hfuel hfuel with
    ⟨ts, rs, hts, hrs, hsame, heffect⟩
  rcases scanBlock_eq (n := n) xdfa4h_scans hpending h hfuel hfuel with
    ⟨hs, rs', hhs, hrs', hsame', heffect'⟩
  have heq : rs = rs' := Option.some.inj (hrs.symm.trans hrs')
  subst heq
  exact ⟨ts, hs, rs, hts, hhs, hrs, hsame, hsame', heffect, heffect'⟩

/-- The text `7,x` across a word boundary. -/
def twoTokens : Mem := fun a =>
  if a = 0#30 then 0x37000000#32 else if a = 1#30 then 0x0000782c#32 else 0#32

theorem scanBlock_tokens_twoTokens :
    Holds twoTokens 3#32 [0x37#8, 0x2c#8, 0x78#8] ∧
      ∃ ts rs, scanBlock twoTokens (xdfa4Transition twoTokens 4) 4 Counts.zero 3#32 = some ts ∧
        coreBlock 4 [0x37#8, 0x2c#8, 0x78#8] (fun _ => 0) = some rs ∧ rs.length = 2 ∧
        List.Forall₂ SameToken ts rs := by
  have hholds : Holds twoTokens 3#32 [0x37#8, 0x2c#8, 0x78#8] := by
    refine ⟨by decide, ?_⟩
    intro k hk
    have hcases : k = 0 ∨ k = 1 ∨ k = 2 ∨ k = 3 := by
      simp at hk
      omega
    rcases hcases with rfl | rfl | rfl | rfl <;> rfl
  rcases scanBlock_tokens (c := Counts.zero) hholds rfl (by decide : 3 < 4) (fun _ => 0) with
    ⟨ts, _, rs, hts, _, hrs, hsame, _⟩
  refine ⟨hholds, ts, rs, hts, hrs, ?_, hsame⟩
  have hlength : (coreBlock 4 [0x37#8, 0x2c#8, 0x78#8] (fun _ => 0)).map List.length = some 2 := by
    decide
  rw [hrs] at hlength
  exact Option.some.inj hlength

end Coremark
end Jyd
