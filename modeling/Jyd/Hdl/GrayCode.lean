import Mathlib.Data.BitVec

/-!
# GrayCode — the reflected code and its decoder in doubling steps

The decoder adds the word to itself, shifted by 1, 2, 4 and so on.  Each stage doubles the
shift that still separates the word from the encoded one, until nothing is left of it.

The codes of consecutive words differ where the carry of the increment stops, so a word that
takes each bit from one of the two codes is one of them.
-/

namespace Jyd
namespace Hdl

variable {w : ℕ}

def grayEncode (x : BitVec w) : BitVec w := x ^^^ (x >>> 1)

def grayStage (y : BitVec w) (shift : ℕ) : BitVec w := y ^^^ (y >>> shift)

/-- One stage doubles the shift. -/
theorem grayStage_double (x : BitVec w) (n : ℕ) :
    grayStage (x ^^^ (x >>> n)) n = x ^^^ (x >>> (2 * n)) := by
  have hshift : x >>> n >>> n = x >>> (2 * n) := by
    rw [← BitVec.shiftRight_add, Nat.two_mul]
  rw [grayStage, BitVec.ushiftRight_xor_distrib, hshift]
  calc
    x ^^^ x >>> n ^^^ (x >>> n ^^^ x >>> (2 * n))
        = x ^^^ (x >>> n ^^^ x >>> n) ^^^ x >>> (2 * n) := by
          rw [BitVec.xor_assoc, ← BitVec.xor_assoc (x >>> n), ← BitVec.xor_assoc]
    _ = x ^^^ x >>> (2 * n) := by rw [BitVec.xor_self, BitVec.xor_zero]

/-- The first `k` stages of the decoder. -/
def grayStages (k : ℕ) (y : BitVec w) : BitVec w :=
  ((List.range k).map (2 ^ ·)).foldl grayStage y

theorem grayStages_encode (x : BitVec w) (k : ℕ) :
    grayStages k (grayEncode x) = x ^^^ (x >>> 2 ^ k) := by
  induction k with
  | zero => rfl
  | succ k ih =>
    have hlast : grayStages (k + 1) (grayEncode x) =
        grayStage (grayStages k (grayEncode x)) (2 ^ k) := by
      simp only [grayStages, List.range_succ, List.map_append, List.foldl_append]
      rfl
    rw [hlast, ih, grayStage_double, Nat.pow_succ, Nat.mul_comm 2]

/-- Enough stages for the width decode. -/
theorem grayStages_decode (x : BitVec w) {k : ℕ} (hk : w ≤ 2 ^ k) :
    grayStages k (grayEncode x) = x := by
  have hzero : x >>> 2 ^ k = 0#w := BitVec.ushiftRight_eq_zero hk
  rw [grayStages_encode, hzero, BitVec.xor_zero]

/-! ## Consecutive words -/

theorem getLsbD_grayEncode (x : BitVec w) (k : ℕ) :
    (grayEncode x).getLsbD k = (x.getLsbD k ^^ x.getLsbD (k + 1)) := by
  rw [grayEncode, BitVec.getLsbD_xor, BitVec.getLsbD_ushiftRight, Nat.add_comm]

theorem grayEncode_xor (x y : BitVec w) :
    grayEncode x ^^^ grayEncode y = grayEncode (x ^^^ y) := by
  apply BitVec.eq_of_getLsbD_eq
  intro k _
  simp only [getLsbD_grayEncode, BitVec.getLsbD_xor]
  cases x.getLsbD k <;> cases x.getLsbD (k + 1) <;> cases y.getLsbD k <;>
    cases y.getLsbD (k + 1) <;> rfl

/-- The carry of an increment comes in at bit `k`. -/
def CarryReaches (x : BitVec w) (k : ℕ) : Prop := k < w ∧ ∀ j < k, x.getLsbD j = true

theorem getLsbD_xor_succ (x : BitVec w) (k : ℕ) :
    (x ^^^ (x + 1)).getLsbD k = true ↔ CarryReaches x k := by
  by_cases hk : k < w
  · rw [BitVec.getLsbD_xor, BitVec.getLsbD_add hk, ← Bool.xor_assoc, Bool.xor_self, Bool.false_xor]
    show (BitVec.getLsbD 1#w k ^^ BitVec.carry k x 1#w false) = true ↔ _
    cases k with
    | zero => simp [CarryReaches, hk]
    | succ k =>
      rw [BitVec.carry_succ_one k x (by omega)]
      simp only [hk, BitVec.getLsbD_eq_getElem, BitVec.getElem_one, Nat.add_eq_zero_iff,
        one_ne_zero, and_false, decide_false, Bool.false_bne, decide_eq_true_eq, CarryReaches,
        Nat.lt_succ_iff, true_and]
  · simp [CarryReaches, hk, BitVec.getLsbD_of_ge _ _ (Nat.le_of_not_lt hk)]

/-- The codes of `x` and `x + 1` differ in the last bit that the carry reaches. -/
theorem grayEncode_ne_iff (x : BitVec w) (k : ℕ) :
    (grayEncode x).getLsbD k ≠ (grayEncode (x + 1)).getLsbD k ↔
      CarryReaches x k ∧ ¬ CarryReaches x (k + 1) := by
  have hxor : (grayEncode x).getLsbD k ≠ (grayEncode (x + 1)).getLsbD k ↔
      ((x ^^^ (x + 1)).getLsbD k ^^ (x ^^^ (x + 1)).getLsbD (k + 1)) = true := by
    rw [← getLsbD_grayEncode, ← grayEncode_xor, BitVec.getLsbD_xor, Bool.xor_iff_ne]
  have hmono : CarryReaches x (k + 1) → CarryReaches x k := by
    intro h
    exact ⟨Nat.lt_of_succ_lt h.1, fun j hj => h.2 j (Nat.lt_succ_of_lt hj)⟩
  rw [hxor, Bool.xor_iff_ne, Ne, Bool.eq_iff_iff, getLsbD_xor_succ, getLsbD_xor_succ]
  tauto

theorem grayEncode_succ_existsUnique (x : BitVec w) (hw : 0 < w) :
    ∃! k, (grayEncode x).getLsbD k ≠ (grayEncode (x + 1)).getLsbD k := by
  -- the carry stops at the first zero of `x`, or in the top bit
  have hstop : ∃ k, ¬ CarryReaches x (k + 1) := ⟨w, fun h => by have := h.1; omega⟩
  classical
  have hlast : CarryReaches x (Nat.find hstop) := by
    rcases hn : Nat.find hstop with _ | n
    · exact ⟨hw, fun j hj => absurd hj (Nat.not_lt_zero j)⟩
    · exact not_not.mp (Nat.find_min hstop (hn ▸ Nat.lt_succ_self n))
  refine ⟨Nat.find hstop, (grayEncode_ne_iff x _).mpr ⟨hlast, Nat.find_spec hstop⟩, ?_⟩
  intro k hk
  rcases (grayEncode_ne_iff x k).mp hk with ⟨hreach, hend⟩
  refine Nat.le_antisymm (Nat.le_of_not_lt fun hlt => ?_) (Nat.find_min' hstop hend)
  -- a carry that reaches `k` has passed every bit below it
  exact Nat.find_spec hstop ⟨lt_of_le_of_lt hlt hreach.1, fun j hj => hreach.2 j (by omega)⟩

/-! ## Words between two words -/

/-- Every bit of `s` is the one of `a` or the one of `b`. -/
def BitsFrom (a b s : BitVec w) : Prop :=
  ∀ k, s.getLsbD k = a.getLsbD k ∨ s.getLsbD k = b.getLsbD k

theorem BitsFrom.eq_or_eq {a b s : BitVec w} (h : BitsFrom a b s) {p : ℕ}
    (hone : ∀ k, a.getLsbD k ≠ b.getLsbD k → k = p) : s = a ∨ s = b := by
  have hagree : ∀ k, k ≠ p → s.getLsbD k = a.getLsbD k ∧ s.getLsbD k = b.getLsbD k := by
    intro k hk
    have heq : a.getLsbD k = b.getLsbD k := by
      by_contra hne
      exact hk (hone k hne)
    rcases h k with hs | hs
    · exact ⟨hs, hs.trans heq⟩
    · exact ⟨hs.trans heq.symm, hs⟩
  rcases h p with hp | hp
  · refine Or.inl (BitVec.eq_of_getLsbD_eq fun k _ => ?_)
    by_cases hk : k = p
    · exact hk ▸ hp
    · exact (hagree k hk).1
  · refine Or.inr (BitVec.eq_of_getLsbD_eq fun k _ => ?_)
    by_cases hk : k = p
    · exact hk ▸ hp
    · exact (hagree k hk).2

end Hdl
end Jyd
