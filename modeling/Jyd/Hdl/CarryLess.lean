import Mathlib.Data.BitVec

/-!
# CarryLess — products without carries, and the loop that computes them

The product is the exclusive or of the shifted multiplicands, one for every set bit of
the multiplier.  The loop shifts the two operands against each other and passes over a
pair of zero bits in one step; it is through as soon as no multiplier bit is left.
-/

namespace Jyd
namespace Hdl
namespace CarryLess

variable {w v : ℕ} {a : BitVec w} {b : BitVec v}

/-- The shifted multiplicands of the low `n` multiplier bits. -/
def partialProduct (a : BitVec w) (b : BitVec v) : ℕ → BitVec w
  | 0 => 0#w
  | n + 1 => partialProduct a b n ^^^ (if b.getLsbD n then a <<< n else 0#w)

def product (a : BitVec w) (b : BitVec v) : BitVec w := partialProduct a b v

theorem partialProduct_succ_of_zero {n : ℕ} (h : b.getLsbD n = false) :
    partialProduct a b (n + 1) = partialProduct a b n := by
  simp [partialProduct, h]

theorem partialProduct_succ_of_one {n : ℕ} (h : b.getLsbD n = true) :
    partialProduct a b (n + 1) = partialProduct a b n ^^^ a <<< n := by
  simp [partialProduct, h]

/-- Multiplier bits that are all zero add nothing. -/
theorem partialProduct_add {n : ℕ} (h : ∀ k, n ≤ k → b.getLsbD k = false) (d : ℕ) :
    partialProduct a b (n + d) = partialProduct a b n := by
  induction d with
  | zero => rfl
  | succ d ih =>
    rw [← ih]
    exact partialProduct_succ_of_zero (h (n + d) (Nat.le_add_right n d))

/-- An exhausted multiplier leaves the whole product. -/
theorem partialProduct_eq_product {n : ℕ} (h : b >>> n = 0#v) :
    partialProduct a b n = product a b := by
  have hzero : ∀ k, n ≤ k → b.getLsbD k = false := by
    intro k hk
    have hbit := congrArg (fun x => x.getLsbD (k - n)) h
    simpa [Nat.add_sub_cancel' hk] using hbit
  rw [product]
  rcases Nat.le_total n v with hle | hle
  · obtain ⟨d, rfl⟩ := Nat.exists_eq_add_of_le hle
    exact (partialProduct_add hzero d).symm
  · -- no bit lies beyond the width of the multiplier
    obtain ⟨d, rfl⟩ := Nat.exists_eq_add_of_le hle
    exact partialProduct_add (fun k hk => BitVec.getLsbD_of_ge b k hk) d

/-! ## The loop -/

structure State (w v : ℕ) where
  multiplicand : BitVec w
  multiplier : BitVec v
  sum : BitVec w

/-- The multiplier bits that one step passes over. -/
def consumed (s : State w v) : ℕ :=
  if s.multiplier.extractLsb' 0 2 == 0#2 then 2 else 1

def step (s : State w v) : State w v where
  multiplicand := s.multiplicand <<< consumed s
  multiplier := s.multiplier >>> consumed s
  sum := if s.multiplier.getLsbD 0 then s.sum ^^^ s.multiplicand else s.sum

/-- What the loop holds when `m` multiplier bits are consumed. -/
structure Holds (a : BitVec w) (b : BitVec v) (m : ℕ) (s : State w v) : Prop where
  multiplicand : s.multiplicand = a <<< m
  multiplier : s.multiplier = b >>> m
  sum : s.sum = partialProduct a b m

theorem holds_zero : Holds a b 0 ⟨a, b, 0#w⟩ := ⟨by simp, by simp, rfl⟩

variable {m : ℕ} {s : State w v}

theorem Holds.getLsbD (h : Holds a b m s) (k : ℕ) : s.multiplier.getLsbD k = b.getLsbD (m + k) := by
  rw [h.multiplier, BitVec.getLsbD_ushiftRight]

theorem Holds.step (h : Holds a b m s) : Holds a b (m + consumed s) (step s) := by
  refine ⟨?_, ?_, ?_⟩
  · rw [CarryLess.step, h.multiplicand, BitVec.shiftLeft_add]
  · rw [CarryLess.step, h.multiplier, BitVec.shiftRight_add]
  · have hlow : s.multiplier.getLsbD 0 = b.getLsbD m := h.getLsbD 0
    simp only [CarryLess.step, consumed]
    cases hskip : s.multiplier.extractLsb' 0 2 == 0#2 with
    | true =>
      -- both bits of the pair are zero, so neither adds to the sum
      have hpair : ∀ k < 2, b.getLsbD (m + k) = false := by
        intro k hk
        have hbit := congrArg (fun x => x.getLsbD k) (beq_iff_eq.mp hskip)
        rw [← h.getLsbD k]
        simpa [hk] using hbit
      have hfirst : b.getLsbD m = false := hpair 0 (by decide)
      rw [hlow, hfirst, if_pos rfl, h.sum, partialProduct_succ_of_zero (hpair 1 (by decide)),
        partialProduct_succ_of_zero hfirst]
      rfl
    | false =>
      rw [hlow, h.sum, h.multiplicand]
      cases hbit : b.getLsbD m with
      | true => exact (partialProduct_succ_of_one hbit).symm
      | false => exact (partialProduct_succ_of_zero hbit).symm

theorem Holds.sum_eq_product (h : Holds a b m s) (hzero : s.multiplier = 0#v) :
    s.sum = product a b := by
  rw [h.sum]
  exact partialProduct_eq_product (h.multiplier.symm.trans hzero)

theorem consumed_pos : 1 ≤ consumed s := by
  unfold consumed
  split <;> decide

/-- The steps after which no multiplier bit is left, `fuel` of them at most. -/
def rounds : ℕ → State w v → ℕ
  | 0, _ => 0
  | fuel + 1, s => if (step s).multiplier = 0#v then 1 else rounds fuel (step s) + 1

theorem rounds_le (fuel : ℕ) (s : State w v) : rounds fuel s ≤ fuel := by
  induction fuel generalizing s with
  | zero => exact Nat.le_refl 0
  | succ fuel ih =>
    rw [rounds]
    split
    · exact Nat.succ_le_succ (Nat.zero_le fuel)
    · exact Nat.succ_le_succ (ih (step s))

end CarryLess
end Hdl
end Jyd
