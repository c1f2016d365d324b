import Mathlib.Data.BitVec
import Mathlib.Logic.Function.Iterate

/-!
# XorLinear — maps of bit vectors that respect exclusive or

Such a map is known as soon as its values on the vectors with one set bit are known
(`XorLinear.eq_of_basis`).  Shift registers with feedback and networks of parities are
built from the maps below.
-/

namespace Jyd
namespace Hdl

def XorLinear {n m : ℕ} (f : BitVec n → BitVec m) : Prop := ∀ x y, f (x ^^^ y) = f x ^^^ f y

/-- A bit that is the exclusive or of bits of the argument. -/
def XorLinearBit {n : ℕ} (b : BitVec n → Bool) : Prop := ∀ x y, b (x ^^^ y) = (b x ^^ b y)

variable {n m k : ℕ}

/-! ## Bits -/

theorem xorLinearBit_getLsbD (k : ℕ) : XorLinearBit fun x : BitVec n => x.getLsbD k :=
  fun _ _ => BitVec.getLsbD_xor

theorem XorLinearBit.xor {b c : BitVec n → Bool} (hb : XorLinearBit b) (hc : XorLinearBit c) :
    XorLinearBit fun x => b x ^^ c x := by
  intro x y
  simp only [hb x y, hc x y]
  cases b x <;> cases b y <;> cases c x <;> cases c y <;> rfl

theorem XorLinearBit.comp {f : BitVec n → BitVec m} {b : BitVec m → Bool} (hb : XorLinearBit b)
    (hf : XorLinear f) : XorLinearBit fun x => b (f x) := by
  intro x y
  simp only [hf x y]
  exact hb (f x) (f y)

/-! ## Vectors -/

/-- A map is linear when each of its bits is. -/
theorem xorLinear_of_bits {f : BitVec n → BitVec m}
    (h : ∀ k < m, XorLinearBit fun x => (f x).getLsbD k) : XorLinear f := by
  intro x y
  apply BitVec.eq_of_getLsbD_eq
  intro k hk
  rw [BitVec.getLsbD_xor]
  exact h k hk x y

theorem XorLinear.xor {f g : BitVec n → BitVec m} (hf : XorLinear f) (hg : XorLinear g) :
    XorLinear fun x => f x ^^^ g x := by
  intro x y
  simp only [hf x y, hg x y]
  rw [BitVec.xor_assoc, BitVec.xor_assoc, ← BitVec.xor_assoc (f y), BitVec.xor_comm (f y),
    BitVec.xor_assoc (g x)]

theorem XorLinear.comp {f : BitVec n → BitVec m} {g : BitVec m → BitVec k} (hg : XorLinear g)
    (hf : XorLinear f) : XorLinear fun x => g (f x) := by
  intro x y
  simp only [hf x y]
  exact hg (f x) (f y)

theorem xorLinear_ite {b : BitVec n → Bool} (hb : XorLinearBit b) (c : BitVec m) :
    XorLinear fun x => if b x then c else 0#m := by
  intro x y
  simp only [hb x y]
  cases b x <;> cases b y <;> simp

theorem xorLinear_setWidth : XorLinear fun x : BitVec n => x.setWidth m :=
  fun _ _ => BitVec.setWidth_xor

theorem xorLinear_extract (start : ℕ) : XorLinear fun x : BitVec n => x.extractLsb' start m := by
  refine xorLinear_of_bits fun k hk x y => ?_
  simp only [BitVec.getLsbD_extractLsb', hk, decide_true, Bool.true_and, BitVec.getLsbD_xor]

/-! ## Maps are determined by their basis values -/

theorem XorLinear.zero {f : BitVec n → BitVec m} (hf : XorLinear f) : f 0#n = 0#m := by
  have h := hf 0#n 0#n
  rwa [BitVec.xor_self, BitVec.xor_self] at h

/-- A vector gains one bit at a time. -/
theorem setWidth_succ_eq (x : BitVec n) (j : ℕ) :
    (x.setWidth (j + 1)).setWidth n =
      (x.setWidth j).setWidth n ^^^ (if x.getLsbD j then BitVec.twoPow n j else 0#n) := by
  apply BitVec.eq_of_getLsbD_eq
  intro i hi
  simp only [BitVec.getLsbD_xor, BitVec.getLsbD_setWidth, hi, decide_true, Bool.true_and]
  by_cases hij : i = j
  · subst hij
    cases x.getLsbD i <;> simp [hi]
  · have hiff : i < j + 1 ↔ i < j := by omega
    have hne : ¬ j = i := fun h => hij h.symm
    cases x.getLsbD j <;> simp [BitVec.getLsbD_twoPow, hiff, hne]

/-- Two linear maps with the same basis values are equal. -/
theorem XorLinear.eq_of_basis {f g : BitVec n → BitVec m} (hf : XorLinear f) (hg : XorLinear g)
    (h : ∀ k < n, f (BitVec.twoPow n k) = g (BitVec.twoPow n k)) (x : BitVec n) : f x = g x := by
  have hlow : ∀ j ≤ n, f ((x.setWidth j).setWidth n) = g ((x.setWidth j).setWidth n) := by
    intro j
    induction j with
    | zero =>
      intro _
      have hzero : (x.setWidth 0).setWidth n = 0#n := by
        apply BitVec.eq_of_getLsbD_eq
        intro i _
        simp [BitVec.getLsbD_setWidth]
      rw [hzero, hf.zero, hg.zero]
    | succ j ih =>
      intro hj
      rw [setWidth_succ_eq, hf, hg, ih (by omega)]
      cases x.getLsbD j with
      | true => exact congrArg _ (h j (by omega))
      | false => exact congrArg _ (hf.zero.trans hg.zero.symm)
  have hfull := hlow n (Nat.le_refl n)
  rwa [BitVec.setWidth_eq, BitVec.setWidth_eq] at hfull

/-! ## Parities -/

/-- The exclusive or of the low `j` bits. -/
theorem xorLinearBit_foldl (bits : List ℕ) :
    XorLinearBit fun x : BitVec n => bits.foldl (fun acc k => acc ^^ x.getLsbD k) false := by
  have hacc : ∀ (x y : BitVec n) (a b : Bool),
      bits.foldl (fun acc k => acc ^^ (x ^^^ y).getLsbD k) (a ^^ b) =
        (bits.foldl (fun acc k => acc ^^ x.getLsbD k) a ^^
          bits.foldl (fun acc k => acc ^^ y.getLsbD k) b) := by
    intro x y
    induction bits with
    | nil => exact fun _ _ => rfl
    | cons k bits ih =>
      intro a b
      have hstep : ((a ^^ b) ^^ (x ^^^ y).getLsbD k) =
          ((a ^^ x.getLsbD k) ^^ (b ^^ y.getLsbD k)) := by
        rw [BitVec.getLsbD_xor]
        cases a <;> cases b <;> cases x.getLsbD k <;> cases y.getLsbD k <;> rfl
      rw [List.foldl_cons, hstep]
      exact ih _ _
  intro x y
  exact hacc x y false false

theorem xorLinear_and (mask : BitVec n) : XorLinear fun x => x &&& mask := by
  refine xorLinear_of_bits fun k _ x y => ?_
  simp only [BitVec.getLsbD_and, BitVec.getLsbD_xor]
  cases x.getLsbD k <;> cases y.getLsbD k <;> cases mask.getLsbD k <;> rfl

/-- A network with one parity for each mask. -/
theorem xorLinear_rows {parity : BitVec n → Bool} (hparity : XorLinearBit parity)
    (masks : List (BitVec n)) :
    XorLinear fun x =>
      (BitVec.ofBoolListLE (masks.map fun mask => parity (x &&& mask))).setWidth m := by
  refine xorLinear_of_bits fun k hk x y => ?_
  simp only [BitVec.getLsbD_setWidth, hk, decide_true, Bool.true_and, BitVec.getLsbD_ofBoolListLE,
    List.getD_eq_getElem?_getD, List.getElem?_map]
  cases masks[k]? with
  | none => rfl
  | some mask => exact hparity.comp (xorLinear_and mask) x y

end Hdl
end Jyd
