import Jyd.Core.TokenScan

/-!
# CoreState — the benchmark's number scanner

`core_state_transition` reads one token of a zero-terminated block, one byte at a time, and
counts transitions in an array.  Its counters are compared with the mask that the hardware
automaton collects over the same bytes.
-/

namespace Jyd
namespace Coremark

open Jyd.Core.NumericTokenDfa

/-! ## The program -/

inductive CoreState
  | start
  | invalid
  | s1
  | s2
  | int
  | float
  | exponent
  | scientific
  deriving DecidableEq, Repr

/-- The numbers that C gives to `enum CORE_STATE`. -/
def CoreState.code : CoreState → BitVec 3
  | .start => 0
  | .invalid => 1
  | .s1 => 2
  | .s2 => 3
  | .int => 4
  | .float => 5
  | .exponent => 6
  | .scientific => 7

abbrev TransitionCount := CoreState → ℕ

/-- `transition_count[s]++`. -/
def TransitionCount.inc (n : TransitionCount) (s : CoreState) : TransitionCount :=
  Function.update n s (n s + 1)

def eeIsdigit (c : BitVec 8) : Bool := '0'.toNat ≤ c.toNat && c.toNat ≤ '9'.toNat

/-- The `switch` on the state. -/
def transition (c : BitVec 8) (n : TransitionCount) : CoreState → CoreState × TransitionCount
  | .start =>
    if eeIsdigit c then (.int, n.inc .start)
    else if c = chr '+' ∨ c = chr '-' then (.s1, n.inc .start)
    else if c = chr '.' then (.float, n.inc .start)
    else (.invalid, (n.inc .invalid).inc .start)
  | .s1 =>
    if eeIsdigit c then (.int, n.inc .s1)
    else if c = chr '.' then (.float, n.inc .s1)
    else (.invalid, n.inc .s1)
  | .int =>
    if c = chr '.' then (.float, n.inc .int)
    else if !eeIsdigit c then (.invalid, n.inc .int)
    else (.int, n)
  | .float =>
    if c = chr 'E' ∨ c = chr 'e' then (.s2, n.inc .float)
    else if !eeIsdigit c then (.invalid, n.inc .float)
    else (.float, n)
  | .s2 =>
    if c = chr '+' ∨ c = chr '-' then (.exponent, n.inc .s2)
    else (.invalid, n.inc .s2)
  | .exponent =>
    if eeIsdigit c then (.scientific, n.inc .exponent)
    else (.invalid, n.inc .exponent)
  | .scientific =>
    if !eeIsdigit c then (.invalid, n.inc .invalid)
    else (.scientific, n)
  | .invalid => (.invalid, n)

/-- Where the pointer ends up behind the start of the token, the final state, the counters. -/
structure Token where
  consumed : ℕ
  state : CoreState
  count : TransitionCount

/-- The loop over the bytes before the terminating zero. -/
def scan : List (BitVec 8) → CoreState → TransitionCount → ℕ → Token
  | [], state, n, k => ⟨k, state, n⟩
  | c :: cs, state, n, k =>
    if state = .invalid then ⟨k, state, n⟩
    else if c = chr ',' then ⟨k + 1, state, n⟩
    else scan cs (transition c n state).1 (transition c n state).2 (k + 1)

/-- `core_state_transition` on the rest of a block. -/
def coreStateTransition (block : List (BitVec 8)) (n : TransitionCount) : Token :=
  scan block .start n 0

/-! ## One byte -/

variable {c : BitVec 8} {n : TransitionCount} {q s : CoreState}

theorem TransitionCount.inc_apply : n.inc q s = n s + if s = q then 1 else 0 := by
  by_cases h : s = q
  · subst h
    simp [inc]
  · simp [inc, h]

/-- The hardware takes the same step. -/
theorem nextState_code : nextState q.code c = (transition c n q).1.code := by
  have hdigit : isDigit c = eeIsdigit c := rfl
  -- the two chains of tests differ only in how they ask for a digit
  cases q <;> simp only [transition, apply_ite Prod.fst, apply_ite CoreState.code]
  all_goals
    simp only [CoreState.code, nextState, hdigit, Bool.or_eq_true, beq_iff_eq]
    cases eeIsdigit c <;> rfl

theorem code_injective : Function.Injective CoreState.code := by
  intro a b h
  cases a <;> cases b <;> first | rfl | exact absurd h (by decide)

/-- Incrementing the counters that a mask names. -/
theorem inc_of_mask {a : CoreState} {mask : BitVec 8}
    (h : ∀ k : BitVec 3, mask.getLsbD k.toNat = decide (k = a.code)) :
    n.inc a s = n s + if mask.getLsbD s.code.toNat then 1 else 0 := by
  rw [TransitionCount.inc_apply, h]
  simp only [decide_eq_true_eq, code_injective.eq_iff]

theorem keep_of_mask {mask : BitVec 8} (h : mask = 0#8) :
    (n s + if mask.getLsbD s.code.toNat then 1 else 0) = n s := by
  rw [h, BitVec.getLsbD_zero, if_neg (by decide), Nat.add_zero]

theorem inc_inc_of_mask {a b : CoreState} (hab : a ≠ b) {mask : BitVec 8}
    (h : ∀ k : BitVec 3, mask.getLsbD k.toNat = decide (k = a.code ∨ k = b.code)) :
    (n.inc a).inc b s = n s + if mask.getLsbD s.code.toNat then 1 else 0 := by
  rw [TransitionCount.inc_apply, TransitionCount.inc_apply, h]
  simp only [decide_eq_true_eq, code_injective.eq_iff]
  by_cases ha : s = a
  · simp [ha, hab]
  · simp [ha]

/-- The mask of the step names the counters that the program increments. -/
theorem count_transition : (transition c n q).2 s =
    n s + if (transitionMask q.code (transition c n q).1.code).getLsbD s.code.toNat then 1 else 0 := by
  generalize hp : transition c n q = p
  cases q <;> simp only [transition] at hp
  all_goals repeat' split at hp
  all_goals
    subst hp
    dsimp only
    first
      | exact (keep_of_mask rfl).symm
      | exact inc_of_mask (by decide)
      | exact inc_inc_of_mask (by decide) (by decide)

/-! ## No counter twice -/

/-- How far a token has come when it enters a state; no transition leads back. -/
def CoreState.rank : CoreState → ℕ
  | .start => 0
  | .s1 => 1
  | .int => 2
  | .float => 3
  | .s2 => 4
  | .exponent => 5
  | .scientific => 6
  | .invalid => 7

theorem rank_le_transition : q.rank ≤ (transition c n q).1.rank := by
  cases q <;> simp only [transition]
  all_goals repeat' split
  all_goals simp [CoreState.rank]

/-- A step counts its own state or, at the end of the token, the invalid one. -/
theorem counted_cases {p : CoreState}
    (h : (transitionMask q.code p.code).getLsbD s.code.toNat = true) :
    s = q ∨ s = .invalid ∧ p = .invalid := by
  have hcodes : ∀ a b k : BitVec 3, (transitionMask a b).getLsbD k.toNat = true →
      k = a ∨ k = 1#3 ∧ b = 1#3 := by decide +kernel
  rcases hcodes _ _ _ h with heq | ⟨hs, hp⟩
  · exact Or.inl (code_injective heq)
  · exact Or.inr ⟨@code_injective s .invalid hs, @code_injective p .invalid hp⟩

theorem rank_le_of_mask {p : CoreState}
    (h : (transitionMask q.code p.code).getLsbD s.code.toNat = true) : q.rank ≤ s.rank := by
  rcases counted_cases h with rfl | ⟨rfl, _⟩
  · exact le_rfl
  · cases q <;> decide

/-- Only three states, when they are not counted, are kept. -/
theorem rank_lt_transition
    (h : (transitionMask q.code (transition c n q).1.code).getLsbD q.code.toNat = true) :
    q.rank < (transition c n q).1.rank := by
  rcases Nat.lt_or_eq_of_le (@rank_le_transition c n q) with hlt | heq
  · exact hlt
  · generalize hp : transition c n q = p at h heq
    cases q <;> simp only [transition] at hp
    all_goals repeat' split at hp
    all_goals
      subst hp
      simp [CoreState.code, transitionMask, CoreState.rank] at h heq

/-- A counted state is left for good. -/
theorem rank_lt_of_mask
    (h : (transitionMask q.code (transition c n q).1.code).getLsbD s.code.toNat = true)
    (hgo : (transition c n q).1 ≠ .invalid) : s.rank < (transition c n q).1.rank := by
  rcases counted_cases h with rfl | ⟨_, hinv⟩
  · exact rank_lt_transition h
  · exact absurd hinv hgo

/-! ## One token -/

theorem byte_start (hc : c ≠ chr ',') (h0 : c ≠ 0#8) (n : TransitionCount) :
    (Scan.start q.code).byte c =
      ⟨(transition c n q).1.code, transitionMask q.code (transition c n q).1.code, 1,
        decide ((transition c n q).1 = .invalid)⟩ := by
  have hstop : (nextState q.code c == 1#3) = decide ((transition c n q).1 = .invalid) := by
    rw [@nextState_code c n q, Bool.eq_iff_iff, beq_iff_eq, decide_eq_true_iff]
    exact code_injective.eq_iff (b := CoreState.invalid)
  rw [← hstop]
  simp [Scan.byte, Scan.start, hc, h0, @nextState_code c n q]

theorem token_nil : Scan.token q.code [] = ⟨q.code, 0, 0, true⟩ := by
  simp [Scan.token, Scan.bytes, Scan.byte, Scan.start]

theorem token_comma {cs : List (BitVec 8)} : Scan.token q.code (chr ',' :: cs) = ⟨q.code, 0, 1, true⟩ := by
  have hfirst : (Scan.start q.code).byte (chr ',') = ⟨q.code, 0, 1, true⟩ := by
    simp [Scan.byte, Scan.start, comma_ne_zero]
  rw [Scan.token, List.cons_append, Scan.bytes_cons, hfirst, Scan.bytes_of_stopped rfl]

/-- A byte inside a token: the scan ends here or goes on from the next state. -/
theorem token_cons {cs : List (BitVec 8)} (hc : c ≠ chr ',') (h0 : c ≠ 0#8) (n : TransitionCount) :
    Scan.token q.code (c :: cs) =
      if (transition c n q).1 = .invalid then
        ⟨(transition c n q).1.code, transitionMask q.code (transition c n q).1.code, 1, true⟩
      else
        Scan.after ⟨(transition c n q).1.code, transitionMask q.code (transition c n q).1.code, 1, false⟩
          (Scan.token (transition c n q).1.code cs) := by
  rw [Scan.token, List.cons_append, Scan.bytes_cons, byte_start hc h0 n]
  by_cases hinv : (transition c n q).1 = .invalid
  · rw [if_pos hinv, decide_eq_true hinv, Scan.bytes_of_stopped rfl]
  · rw [if_neg hinv, decide_eq_false hinv, Scan.bytes_resume rfl]
    rfl

theorem rank_le_of_token {block : List (BitVec 8)} (hz : 0#8 ∉ block)
    (h : (Scan.token q.code block).mask.getLsbD s.code.toNat = true) : q.rank ≤ s.rank := by
  induction block generalizing q with
  | nil => simp [token_nil] at h
  | cons c cs ih =>
    rw [List.mem_cons, not_or] at hz
    by_cases hc : c = chr ','
    · subst hc
      simp [token_comma] at h
    · rw [token_cons hc (Ne.symm hz.1) (fun _ => 0)] at h
      by_cases hinv : (transition c (fun _ => 0) q).1 = .invalid
      · rw [if_pos hinv] at h
        exact rank_le_of_mask h
      · rw [if_neg hinv] at h
        have hor : (transitionMask q.code (transition c (fun _ => 0) q).1.code).getLsbD
            s.code.toNat = true ∨
            (Scan.token (transition c (fun _ => 0) q).1.code cs).mask.getLsbD s.code.toNat = true := by
          simpa [Scan.after] using h
        rcases hor with h | h
        · exact rank_le_of_mask h
        · exact le_trans rank_le_transition (ih hz.2 h)

/-- The loop of the program and the scan agree from every state of a token. -/
theorem scan_eq_token {block : List (BitVec 8)} (hz : 0#8 ∉ block) (hq : q ≠ .invalid) (k : ℕ) :
    (scan block q n k).consumed = k + (Scan.token q.code block).consumed ∧
      (scan block q n k).state.code = (Scan.token q.code block).state ∧
      (∀ s, (scan block q n k).count s =
        n s + if (Scan.token q.code block).mask.getLsbD s.code.toNat then 1 else 0) ∧
      (Scan.token q.code block).stopped = true := by
  induction block generalizing q n k with
  | nil => simp [scan, token_nil]
  | cons c cs ih =>
    rw [List.mem_cons, not_or] at hz
    by_cases hc : c = chr ','
    · subst hc
      simp [scan, hq, token_comma]
    rw [scan, if_neg hq, if_neg hc, token_cons hc (Ne.symm hz.1) n]
    by_cases hinv : (transition c n q).1 = .invalid
    · -- the loop condition fails before the next byte, or there is none
      have hend : scan cs (transition c n q).1 (transition c n q).2 (k + 1) =
          ⟨k + 1, (transition c n q).1, (transition c n q).2⟩ := by
        cases cs <;> simp [scan, hinv]
      rw [if_pos hinv, hend]
      exact ⟨rfl, rfl, fun s => count_transition, rfl⟩
    · rw [if_neg hinv]
      rcases ih hz.2 hinv (n := (transition c n q).2) (k + 1) with ⟨hcons, hstate, hcount, hstop⟩
      refine ⟨?_, hstate, ?_, hstop⟩
      · simp only [hcons, Scan.after]
        omega
      · intro s
        rw [hcount, count_transition]
        -- a counter that this byte has incremented is not incremented again
        have hdisj : (transitionMask q.code (transition c n q).1.code).getLsbD s.code.toNat =
            true → (Scan.token (transition c n q).1.code cs).mask.getLsbD s.code.toNat = false := by
          intro hnow
          by_contra hlater
          have hlt := rank_lt_of_mask hnow hinv
          have hle := rank_le_of_token hz.2 (Bool.eq_true_of_not_eq_false hlater)
          omega
        cases hnow : (transitionMask q.code (transition c n q).1.code).getLsbD s.code.toNat with
        | true => simp [Scan.after, hnow, hdisj hnow]
        | false => simp [Scan.after, hnow]

/-- The pointer stays inside the block. -/
theorem scan_consumed_le {block : List (BitVec 8)} (k : ℕ) :
    (scan block q n k).consumed ≤ k + block.length := by
  induction block generalizing q n k with
  | nil => simp [scan]
  | cons c cs ih =>
    rw [scan, List.length_cons]
    split_ifs
    · simp
    · simp
    · have hrest : (scan cs (transition c n q).1 (transition c n q).2 (k + 1)).consumed ≤
          k + 1 + cs.length := ih (k + 1)
      omega

theorem le_scan_consumed {block : List (BitVec 8)} (k : ℕ) : k ≤ (scan block q n k).consumed := by
  induction block generalizing q n k with
  | nil => simp [scan]
  | cons c cs ih =>
    rw [scan]
    split_ifs
    · simp
    · simp
    · exact le_trans (Nat.le_succ k) (ih (k + 1))

/-- Every call makes progress. -/
theorem consumed_pos {block : List (BitVec 8)} (hne : block ≠ []) :
    0 < (coreStateTransition block n).consumed := by
  cases block with
  | nil => exact absurd rfl hne
  | cons c cs =>
    have hstart : CoreState.start ≠ .invalid := by decide
    rw [coreStateTransition, scan, if_neg hstart]
    split_ifs
    · exact Nat.one_pos
    · exact le_scan_consumed 1

end Coremark
end Jyd
