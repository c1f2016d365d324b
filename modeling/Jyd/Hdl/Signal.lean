import Mathlib.Algebra.Ring.Nat
import Mathlib.Data.Bool.Basic
import Mathlib.Logic.Function.Basic

/-!
# Signal — the combinational vocabulary of the circuits

Words, replicated bits, one-hot multiplexers, byte-masked words and the
valid/ready pipeline register.  Everything here is generic in the payload.
-/

namespace Jyd
namespace Hdl

abbrev Word := BitVec 32

/-- Replicate one bit. -/
def fill (n : Nat) (b : Bool) : BitVec n :=
  if b then BitVec.allOnes n else 0#n

/-- One-hot multiplexer: the disjunction of the enabled inputs. -/
def mux1H {n : Nat} : List (Bool × BitVec n) → BitVec n
  | [] => 0#n
  | (c, x) :: rest => (if c then x else 0#n) ||| mux1H rest

def mux1HBool (xs : List (Bool × Bool)) : Bool :=
  xs.any (fun p => p.1 && p.2)

/-- Byte `i` of a word. -/
def byteOf (x : Word) (i : Nat) : BitVec 8 :=
  x.extractLsb' (8 * i) 8

/-- Reassemble a word from its bytes, byte `0` in the low bits. -/
def ofBytes (f : Nat → BitVec 8) : Word :=
  f 3 ++ f 2 ++ f 1 ++ f 0

/-- Replace the bytes of `old` that `mask` enables by those of `new`. -/
def writeMasked (mask : BitVec 4) (new old : Word) : Word :=
  ofBytes (fun i => if mask.getLsbD i then byteOf new i else byteOf old i)

/-! ### Byte lemmas -/

theorem byteOf_xor (x y : Word) (k : Nat) : byteOf (x ^^^ y) k = byteOf x k ^^^ byteOf y k :=
  BitVec.extractLsb'_xor

theorem getLsbD_byteOf (x : Word) (k n : Nat) :
    (byteOf x k).getLsbD n = (decide (n < 8) && x.getLsbD (8 * k + n)) :=
  BitVec.getLsbD_extractLsb' _ _ _ _

/-- Words are equal when their four bytes are. -/
theorem eq_of_byteOf {x y : Word} (h : ∀ k < 4, byteOf x k = byteOf y k) : x = y := by
  apply BitVec.eq_of_getLsbD_eq
  intro n hn
  have hbyte := congrArg (fun b => b.getLsbD (n % 8)) (h (n / 8) (by omega))
  have hlt : n % 8 < 8 := Nat.mod_lt n (by decide)
  simpa only [getLsbD_byteOf, hlt, decide_true, Bool.true_and, Nat.div_add_mod] using hbyte

theorem byteOf_ofBytes (f : Nat → BitVec 8) {k : Nat} (hk : k < 4) : byteOf (ofBytes f) k = f k := by
  apply BitVec.eq_of_getLsbD_eq
  intro n hn
  have hcases : k = 0 ∨ k = 1 ∨ k = 2 ∨ k = 3 := by omega
  simp only [getLsbD_byteOf, ofBytes, BitVec.getLsbD_append, hn, decide_true, Bool.true_and]
  rcases hcases with rfl | rfl | rfl | rfl <;> grind

theorem byteOf_writeMasked (mask : BitVec 4) (new old : Word) {k : Nat} (hk : k < 4) :
    byteOf (writeMasked mask new old) k = if mask.getLsbD k then byteOf new k else byteOf old k :=
  byteOf_ofBytes _ hk

/-- The low part of a vector that was widened. -/
theorem extractLsb'_setWidth {n m : Nat} (x : BitVec n) (h : n ≤ m) :
    (x.setWidth m).extractLsb' 0 n = x := by
  apply BitVec.eq_of_getLsbD_eq
  intro k hk
  have hlt : k < m := by omega
  simp only [BitVec.getLsbD_extractLsb', BitVec.getLsbD_setWidth, hk, hlt, Nat.zero_add, decide_true,
    Bool.true_and]

theorem getLsbD_eq_decide {n : Nat} (x : BitVec n) (k : Nat) :
    x.getLsbD k = decide (x.toNat / 2 ^ k % 2 = 1) := by
  rw [BitVec.getLsbD, Nat.testBit_eq_decide_div_mod_eq]

/-- The address of an aligned word is kept by the word mask. -/
theorem and_not_three {a : Word} (h : a.toNat % 4 = 0) : a &&& ~~~3#32 = a := by
  apply BitVec.eq_of_getLsbD_eq
  intro k hk
  rw [BitVec.getLsbD_and, BitVec.getLsbD_not]
  by_cases hlow : k < 2
  · have hbit : a.getLsbD k = false := by
      have hmod := Nat.testBit_mod_two_pow a.toNat 2 k
      rw [show a.toNat % 2 ^ 2 = 0 from h, Nat.zero_testBit] at hmod
      rw [BitVec.getLsbD]
      simpa [hlow] using hmod.symm
    rw [hbit, Bool.false_and]
  · have hmask : (3#32).getLsbD k = false := by
      rw [show (3#32) = BitVec.ofNat 32 (2 ^ 2 - 1) from rfl, BitVec.getLsbD_ofNat,
        Nat.testBit_two_pow_sub_one]
      simp [hlow]
    rw [hmask]
    simp [hk]

/-- A wire that is only meaningful when `valid`. -/
structure Valid (α : Type) where
  valid : Bool
  bits : α
  deriving DecidableEq, Repr

/-- A valid/ready pipeline register. -/
structure Pipe (α : Type) where
  valid : Bool
  bits : α
  deriving DecidableEq, Repr

namespace Pipe

variable {α : Type}

/-- The register takes a new payload when it is empty or its consumer is ready. -/
def allowIn (p : Pipe α) (ready : Bool) : Bool :=
  !p.valid || ready

def next (p : Pipe α) (ready : Bool) (prevValid : Bool) (prevBits : α) : Pipe α :=
  if p.allowIn ready then ⟨prevValid, prevBits⟩ else p

end Pipe

end Hdl
end Jyd
