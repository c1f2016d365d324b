import Mathlib.Data.BitVec

/-!
# BitField — masked fields and sign extension by a borrow

Bit by bit: a mask of ones keeps the low bits, and flipping the sign bit of a field before
subtracting it extends the field to the whole word.
-/

namespace Jyd
namespace Hdl

variable {w : ℕ}

/-- A mask of `k` ones keeps the low `k` bits. -/
theorem getLsbD_mask (y mask : BitVec w) {k : ℕ} (hm : mask = (BitVec.allOnes k).setWidth w)
    (n : ℕ) : (y &&& mask).getLsbD n = (decide (n < k) && y.getLsbD n) := by
  rw [BitVec.getLsbD_and, hm, BitVec.getLsbD_setWidth, BitVec.getLsbD_allOnes]
  by_cases hn : n < w
  · simp [hn, Bool.and_comm]
  · simp [BitVec.getLsbD_of_ge y n (by omega)]

/-- A shifted and masked word is a field of it. -/
theorem shiftRight_and_mask (x mask : BitVec w) (start : ℕ) {k : ℕ}
    (hm : mask = (BitVec.allOnes k).setWidth w) :
    (x >>> start) &&& mask = (x.extractLsb' start k).setWidth w := by
  apply BitVec.eq_of_getLsbD_eq
  intro n hn
  rw [getLsbD_mask _ _ hm, BitVec.getLsbD_ushiftRight, BitVec.getLsbD_setWidth,
    BitVec.getLsbD_extractLsb', decide_eq_true hn, Bool.true_and]

theorem getLsbD_one_shiftLeft {k : ℕ} (hk : k < w) (n : ℕ) :
    (1#w <<< k).getLsbD n = decide (n = k) := by
  rw [← BitVec.twoPow_eq, BitVec.getLsbD_twoPow]
  by_cases hn : n = k
  · simp [hn, hk]
  · simp [hn, Ne.symm hn]

/-- A word put together bit by bit. -/
theorem getLsbD_foldl_bits (bit : ℕ → Bool) {n : ℕ} (hn : n < w) :
    ((List.range w).foldl (fun acc k => if bit k then acc ||| 1#w <<< k else acc) 0).getLsbD n =
      bit n := by
  have hupto : ∀ m ≤ w, ((List.range m).foldl
      (fun acc k => if bit k then acc ||| 1#w <<< k else acc) 0).getLsbD n =
        (decide (n < m) && bit n) := by
    intro m hm
    induction m with
    | zero => simp
    | succ m ih =>
      rw [List.range_succ, List.foldl_append, List.foldl_cons, List.foldl_nil]
      by_cases hnm : n = m
      · subst hnm
        cases hb : bit n
        · rw [if_neg Bool.false_ne_true, ih (by omega), hb, Bool.and_false, Bool.and_false]
        · rw [if_pos rfl, BitVec.getLsbD_or, getLsbD_one_shiftLeft hn]
          simp
      · have hlt : decide (n < m + 1) = decide (n < m) := decide_eq_decide.mpr (by omega)
        rw [hlt, ← ih (by omega)]
        split
        · rw [BitVec.getLsbD_or, getLsbD_one_shiftLeft (by omega), decide_eq_false hnm, Bool.or_false]
        · rfl
  rw [hupto w le_rfl, decide_eq_true hn, Bool.true_and]

/-- Sign extension of the field up to bit `k`, by borrow and bit by bit. -/
theorem getLsbD_flip_sub {k : ℕ} (hk : k < w) {x : BitVec w}
    (hx : ∀ n, k < n → x.getLsbD n = false) (n : ℕ) (hn : n < w) :
    ((x ^^^ 1#w <<< k) - 1#w <<< k).getLsbD n = if n < k then x.getLsbD n else x.getLsbD k := by
  have hbit := getLsbD_one_shiftLeft hk
  have hneg : -(1#w <<< k) = BitVec.allOnes w <<< k := by
    rw [← BitVec.neg_one_eq_allOnes, BitVec.shiftLeft_neg]
  -- flipping the sign bit adds it to a positive field and clears it in a negative one
  cases hb : x.getLsbD k with
  | false =>
    have hdisj : x &&& 1#w <<< k = 0#w := by
      apply BitVec.eq_of_getLsbD_eq
      intro m hm
      rw [BitVec.getLsbD_and, hbit]
      grind
    have hxor : x ^^^ 1#w <<< k = x + 1#w <<< k := by
      rw [BitVec.add_eq_or_of_and_eq_zero _ _ hdisj]
      apply BitVec.eq_of_getLsbD_eq
      intro m hm
      rw [BitVec.getLsbD_xor, BitVec.getLsbD_or, hbit]
      grind
    rw [hxor, BitVec.add_sub_cancel]
    grind
  | true =>
    have hdisj : (x ^^^ 1#w <<< k) &&& BitVec.allOnes w <<< k = 0#w := by
      apply BitVec.eq_of_getLsbD_eq
      intro m hm
      rw [BitVec.getLsbD_and, BitVec.getLsbD_xor, hbit]
      simp only [BitVec.getLsbD_shiftLeft, BitVec.getLsbD_allOnes]
      grind
    rw [BitVec.sub_eq_add_neg, hneg, BitVec.add_eq_or_of_and_eq_zero _ _ hdisj,
      BitVec.getLsbD_or, BitVec.getLsbD_xor, hbit]
    simp only [BitVec.getLsbD_shiftLeft, BitVec.getLsbD_allOnes]
    grind

end Hdl
end Jyd
