import Jyd.Hdl.Signal
import Mathlib.Data.BitVec
import Mathlib.Tactic.IntervalCases

/-!
# Groups — words made of equal groups of bits

A register that takes one group at its upper end per step, and moves the others down by
one group, holds the groups in the order of their arrival once it is full.
-/

namespace Jyd
namespace Hdl

/-- Group `k` of `w` bits. -/
def group (w : ℕ) {n : ℕ} (x : BitVec n) (k : ℕ) : BitVec w := x.extractLsb' (w * k) w

theorem getLsbD_group {w n : ℕ} (x : BitVec n) (k j : ℕ) :
    (group w x k).getLsbD j = (decide (j < w) && x.getLsbD (w * k + j)) :=
  BitVec.getLsbD_extractLsb' _ _ _ _

theorem group_byte (x : Word) (k : ℕ) : group 8 x k = byteOf x k := rfl

theorem group_extractLsb' {w v n : ℕ} (x : BitVec n) {k : ℕ} (h : w * (k + 1) ≤ v) :
    group w (x.extractLsb' 0 v) k = group w x k := by
  apply BitVec.eq_of_getLsbD_eq
  intro j hj
  rw [Nat.mul_succ] at h
  have hlt : w * k + j < v := by omega
  simp only [getLsbD_group, BitVec.getLsbD_extractLsb', hlt, Nat.zero_add, decide_true,
    Bool.true_and]

/-! ## Shifting groups in -/

section ShiftIn

variable {w v n : ℕ} {g : BitVec w} {acc : BitVec n} {k : ℕ}

theorem group_shiftIn_top (hn : w + v ≤ n) (h : w * k = v) :
    group w ((g ++ acc.extractLsb' w v).setWidth n) k = g := by
  apply BitVec.eq_of_getLsbD_eq
  intro j hj
  have hlt : w * k + j < n := by omega
  have hnot : ¬ w * k + j < v := by omega
  have hsub : w * k + j - v = j := by omega
  simp only [getLsbD_group, BitVec.getLsbD_setWidth, BitVec.getLsbD_append, hj, hlt, hnot, hsub,
    decide_true, Bool.true_and, if_false]

theorem group_shiftIn_below (hn : w + v ≤ n) (h : w * (k + 1) ≤ v) :
    group w ((g ++ acc.extractLsb' w v).setWidth n) k = group w acc (k + 1) := by
  apply BitVec.eq_of_getLsbD_eq
  intro j hj
  rw [Nat.mul_succ] at h
  have hlt : w * k + j < n := by omega
  have hbelow : w * k + j < v := by omega
  have hindex : w + (w * k + j) = w * (k + 1) + j := by rw [Nat.mul_succ]; omega
  simp only [getLsbD_group, BitVec.getLsbD_setWidth, BitVec.getLsbD_append,
    BitVec.getLsbD_extractLsb', hj, hlt, hbelow, hindex, decide_true, Bool.true_and, if_true]

end ShiftIn

/-- The upper `j` of `m` groups are the first `j` groups of `f`. -/
def Filled {w n : ℕ} (m : ℕ) (f : ℕ → BitVec w) (j : ℕ) (acc : BitVec n) : Prop :=
  ∀ k < j, group w acc (m - j + k) = f k

theorem Filled.shiftIn {w n m j : ℕ} {f : ℕ → BitVec w} {acc : BitVec n} (h : Filled m f j acc)
    {v : ℕ} (hn : w + v ≤ n) (hv : w * (m - 1) = v) (hj : j < m) :
    Filled m f (j + 1) ((f j ++ acc.extractLsb' w v).setWidth n) := by
  intro k hk
  rcases Nat.lt_succ_iff_lt_or_eq.mp hk with hlt | rfl
  · have hindex : m - (j + 1) + k + 1 = m - j + k := by omega
    have hbelow : w * (m - (j + 1) + k + 1) ≤ v := by
      rw [← hv]
      exact Nat.mul_le_mul_left w (by omega)
    rw [group_shiftIn_below hn hbelow, hindex]
    exact h k hlt
  · have htop : m - (k + 1) + k = m - 1 := by omega
    rw [htop]
    exact group_shiftIn_top hn hv

/-! ## Nibbles -/

/-- Reassemble a word from its nibbles, nibble `0` in the low bits. -/
def ofNibbles (f : ℕ → BitVec 4) : Word :=
  f 7 ++ f 6 ++ f 5 ++ f 4 ++ f 3 ++ f 2 ++ f 1 ++ f 0

theorem group_ofNibbles (f : ℕ → BitVec 4) {k : ℕ} (hk : k < 8) : group 4 (ofNibbles f) k = f k := by
  apply BitVec.eq_of_getLsbD_eq
  intro j hj
  simp only [getLsbD_group, ofNibbles, BitVec.getLsbD_append, hj, decide_true, Bool.true_and]
  interval_cases k <;> grind

/-- Words are equal when their groups are. -/
theorem eq_of_group {w m : ℕ} (hw : w * m = 32) {x y : Word}
    (h : ∀ k < m, group w x k = group w y k) : x = y := by
  have hpos : 0 < w := Nat.pos_of_ne_zero (by rintro rfl; omega)
  apply BitVec.eq_of_getLsbD_eq
  intro j hj
  have hlt : j % w < w := Nat.mod_lt j hpos
  have hk : j / w < m := by
    rw [Nat.div_lt_iff_lt_mul hpos, Nat.mul_comm, hw]
    exact hj
  have hbit := congrArg (fun g => g.getLsbD (j % w)) (h (j / w) hk)
  simpa only [getLsbD_group, hlt, decide_true, Bool.true_and, Nat.div_add_mod] using hbit

end Hdl
end Jyd
