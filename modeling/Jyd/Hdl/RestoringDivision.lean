import Mathlib.Tactic.Ring

/-!
# RestoringDivision — one quotient bit a round

A divider of width `n + 1` shifts the dividend out of the register into which it
shifts the quotient.  The invariant `Holds` says what both registers contain after some
rounds.  It covers the divisor `0`, for which every trial subtraction succeeds.
-/

namespace Jyd
namespace Hdl
namespace RestoringDivision

/-- The remainder, and the register shared by dividend and quotient. -/
structure State where
  remainder : ℕ
  quotient : ℕ
  deriving DecidableEq, Repr

variable (n divisor : ℕ) (s : State)

/-- The remainder with the next dividend bit appended. -/
def shifted : ℕ := 2 * s.remainder + s.quotient / 2 ^ n

/-- The quotient bit of a round. -/
def bit : ℕ := if divisor ≤ shifted n s then 1 else 0

def step : State where
  remainder := shifted n s - bit n divisor s * divisor
  quotient := 2 * (s.quotient % 2 ^ n) + bit n divisor s

/-- The quotient bits after `k` rounds, when the rounds have consumed `scanned`. -/
def quotientBits (scanned k : ℕ) : ℕ := if divisor = 0 then 2 ^ k - 1 else scanned / divisor

/-- The registers after `k` rounds, with `j` rounds to go. -/
structure Holds (n dividend divisor k j : ℕ) (s : State) : Prop where
  rounds : k + j = n + 1
  remainder : s.remainder = dividend / 2 ^ j % divisor
  quotient : s.quotient =
    dividend % 2 ^ j * 2 ^ k + quotientBits divisor (dividend / 2 ^ j) k

variable {n divisor s} {dividend k j : ℕ}

theorem holds_zero (h : dividend < 2 ^ (n + 1)) :
    Holds n dividend divisor 0 (n + 1) ⟨0, dividend⟩ where
  rounds := by omega
  remainder := by simp [Nat.div_eq_of_lt h]
  quotient := by simp [quotientBits, Nat.div_eq_of_lt h, Nat.mod_eq_of_lt h]

/-! ## Prefixes of the dividend -/

theorem scanned_succ : dividend / 2 ^ j = 2 * (dividend / 2 ^ (j + 1)) + dividend / 2 ^ j % 2 := by
  have hhalf : dividend / 2 ^ (j + 1) = dividend / 2 ^ j / 2 := by
    rw [Nat.div_div_eq_div_mul, pow_succ]
  rw [hhalf]
  omega

theorem rest_succ :
    dividend % 2 ^ (j + 1) = dividend / 2 ^ j % 2 * 2 ^ j + dividend % 2 ^ j := by
  rw [Nat.mod_pow_succ]
  ring

theorem scanned_lt (h : dividend < 2 ^ (k + j)) : dividend / 2 ^ j < 2 ^ k := by
  rw [Nat.div_lt_iff_lt_mul (Nat.two_pow_pos _), ← pow_add]
  exact h

theorem quotientBits_lt {scanned : ℕ} (h : scanned < 2 ^ k) :
    quotientBits divisor scanned k < 2 ^ k := by
  unfold quotientBits
  split
  · have hpos : 0 < 2 ^ k := Nat.two_pow_pos _
    omega
  · exact (Nat.div_le_self _ _).trans_lt h

/-- Long division by one more bit. -/
theorem div_mod_succ {x b : ℕ} (hb : b < 2) (hpos : 0 < divisor) :
    (2 * x + b) / divisor =
        2 * (x / divisor) + (if divisor ≤ 2 * (x % divisor) + b then 1 else 0) ∧
      (2 * x + b) % divisor =
        2 * (x % divisor) + b - (if divisor ≤ 2 * (x % divisor) + b then 1 else 0) * divisor := by
  have hx : divisor * (x / divisor) + x % divisor = x := Nat.div_add_mod x divisor
  have hlt : x % divisor < divisor := Nat.mod_lt _ hpos
  rw [Nat.div_mod_unique hpos]
  split
  · rename_i hle
    refine ⟨?_, by omega⟩
    calc
      2 * (x % divisor) + b - 1 * divisor + divisor * (2 * (x / divisor) + 1)
          = 2 * (x % divisor) + b - 1 * divisor + 1 * divisor + 2 * (divisor * (x / divisor)) := by
            ring
      _ = 2 * (x % divisor) + b + 2 * (divisor * (x / divisor)) := by
            rw [Nat.sub_add_cancel (by omega)]
      _ = 2 * x + b := by omega
  · refine ⟨?_, by omega⟩
    calc
      2 * (x % divisor) + b - 0 * divisor + divisor * (2 * (x / divisor) + 0)
          = 2 * (x % divisor) + b + 2 * (divisor * (x / divisor)) := by
            rw [Nat.zero_mul, Nat.sub_zero]
            ring
      _ = 2 * x + b := by omega

/-! ## One round -/

namespace Holds

/-- The register top is the next dividend bit. -/
theorem top_eq (hlt : dividend < 2 ^ (n + 1)) (h : Holds n dividend divisor k (j + 1) s) :
    s.quotient / 2 ^ n = dividend / 2 ^ j % 2 ∧
      s.quotient % 2 ^ n =
        dividend % 2 ^ j * 2 ^ k + quotientBits divisor (dividend / 2 ^ (j + 1)) k := by
  have hn : n = j + k := by have := h.rounds; omega
  have hbits : quotientBits divisor (dividend / 2 ^ (j + 1)) k < 2 ^ k :=
    quotientBits_lt (scanned_lt (by rwa [h.rounds]))
  have hrest : dividend % 2 ^ j < 2 ^ j := Nat.mod_lt _ (Nat.two_pow_pos _)
  -- the unread dividend bits end where the quotient bits begin
  have hlow : dividend % 2 ^ j * 2 ^ k + quotientBits divisor (dividend / 2 ^ (j + 1)) k
      < 2 ^ n := by
    calc
      dividend % 2 ^ j * 2 ^ k + quotientBits divisor (dividend / 2 ^ (j + 1)) k
          < dividend % 2 ^ j * 2 ^ k + 2 ^ k := by omega
      _ = (dividend % 2 ^ j + 1) * 2 ^ k := by ring
      _ ≤ 2 ^ j * 2 ^ k := Nat.mul_le_mul_right _ hrest
      _ = 2 ^ n := by rw [hn, pow_add]
  rw [Nat.div_mod_unique (Nat.two_pow_pos _)]
  refine ⟨?_, hlow⟩
  rw [h.quotient, rest_succ, hn, pow_add]
  ring

theorem shifted_eq (hlt : dividend < 2 ^ (n + 1)) (h : Holds n dividend divisor k (j + 1) s) :
    shifted n s = 2 * (dividend / 2 ^ (j + 1) % divisor) + dividend / 2 ^ j % 2 := by
  rw [shifted, (h.top_eq hlt).1, h.remainder]

/-- Adding the divisor's width of headroom is enough to see the borrow of the trial
subtraction, also when the divisor is `0`. -/
theorem shifted_lt (hlt : dividend < 2 ^ (n + 1)) (hdivisor : divisor < 2 ^ (n + 1))
    (h : Holds n dividend divisor k (j + 1) s) : shifted n s < divisor + 2 ^ (n + 1) := by
  rw [h.shifted_eq hlt]
  rcases Nat.eq_zero_or_pos divisor with hzero | hpos
  -- nothing was ever subtracted, so the remainder is a prefix of the dividend
  · rw [hzero, Nat.mod_zero, ← scanned_succ, zero_add]
    exact (Nat.div_le_self _ _).trans_lt hlt
  · have hmod : dividend / 2 ^ (j + 1) % divisor < divisor := Nat.mod_lt _ hpos
    omega

theorem remainder_lt (hlt : dividend < 2 ^ (n + 1)) (h : Holds n dividend divisor k j s) :
    s.remainder < 2 ^ (n + 1) := by
  rw [h.remainder]
  exact ((Nat.mod_le _ _).trans (Nat.div_le_self _ _)).trans_lt hlt

theorem step (hlt : dividend < 2 ^ (n + 1)) (h : Holds n dividend divisor k (j + 1) s) :
    Holds n dividend divisor (k + 1) j (RestoringDivision.step n divisor s) := by
  have hb : dividend / 2 ^ j % 2 < 2 := Nat.mod_lt _ (by omega)
  have hrounds : k + 1 + j = n + 1 := by have := h.rounds; omega
  rcases Nat.eq_zero_or_pos divisor with rfl | hpos
  · -- a zero divisor is always subtracted
    have hbit : bit n 0 s = 1 := by simp [bit]
    refine ⟨hrounds, ?_, ?_⟩
    · simp only [RestoringDivision.step, Nat.mul_zero, Nat.sub_zero, Nat.mod_zero]
      rw [h.shifted_eq hlt, Nat.mod_zero, ← scanned_succ]
    · have hpow : 0 < 2 ^ k := Nat.two_pow_pos _
      simp only [RestoringDivision.step, hbit, (h.top_eq hlt).2, quotientBits, if_true]
      rw [pow_succ, Nat.mul_add, ← Nat.mul_assoc, Nat.mul_comm 2 (_ % _), Nat.mul_assoc,
        Nat.mul_comm 2 (2 ^ k)]
      omega
  · rcases div_mod_succ (x := dividend / 2 ^ (j + 1)) hb hpos with ⟨hdiv, hmod⟩
    rw [← scanned_succ, ← h.shifted_eq hlt] at hdiv hmod
    refine ⟨hrounds, hmod.symm, ?_⟩
    have hne : divisor ≠ 0 := by omega
    simp only [RestoringDivision.step, (h.top_eq hlt).2, quotientBits, hne, if_false, hdiv, bit]
    ring

end Holds

/-- After the last round the registers hold the remainder and the quotient; for the
divisor `0` these are the dividend and all ones. -/
theorem Holds.result (h : Holds n dividend divisor (n + 1) 0 s) :
    s.remainder = dividend % divisor ∧
      s.quotient = if divisor = 0 then 2 ^ (n + 1) - 1 else dividend / divisor := by
  refine ⟨?_, ?_⟩
  · simpa using h.remainder
  · simpa [quotientBits, Nat.mod_one] using h.quotient

end RestoringDivision
end Hdl
end Jyd
