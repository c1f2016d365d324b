import Jyd.Hdl.Signal
import Mathlib.Data.BitVec

/-!
# MExtension — what the RISC-V multiply and divide instructions compute

The values are written over the integers the operand words stand for.  Division rounds
towards zero; a zero divisor and the one signed overflow have results of their own.
-/

namespace Jyd
namespace Isa

open Hdl

inductive MulOp
  | mul
  | mulh
  | mulhsu
  | mulhu
  deriving DecidableEq, Repr

inductive DivOp
  | div
  | divu
  | rem
  | remu
  deriving DecidableEq, Repr

namespace MulOp

def func3t : MulOp → BitVec 3
  | mul => 0
  | mulh => 1
  | mulhsu => 2
  | mulhu => 3

def result (op : MulOp) (a b : Word) : Word :=
  match op with
  | mul => BitVec.ofInt 32 (a.toInt * b.toInt)
  | mulh => BitVec.ofInt 32 (a.toInt * b.toInt / 2 ^ 32)
  | mulhsu => BitVec.ofInt 32 (a.toInt * b.toNat / 2 ^ 32)
  | mulhu => BitVec.ofNat 32 (a.toNat * b.toNat / 2 ^ 32)

end MulOp

namespace DivOp

def func3t : DivOp → BitVec 3
  | div => 4
  | divu => 5
  | rem => 6
  | remu => 7

def result (op : DivOp) (a b : Word) : Word :=
  let overflow : Bool := a == BitVec.intMin 32 && b == BitVec.allOnes 32
  match op with
  | div =>
    if b = 0 then BitVec.allOnes 32
    else if overflow then BitVec.intMin 32
    else BitVec.ofInt 32 (a.toInt.tdiv b.toInt)
  | divu => if b = 0 then BitVec.allOnes 32 else BitVec.ofNat 32 (a.toNat / b.toNat)
  | rem =>
    if b = 0 then a
    else if overflow then 0
    else BitVec.ofInt 32 (a.toInt.tmod b.toInt)
  | remu => if b = 0 then a else BitVec.ofNat 32 (a.toNat % b.toNat)

variable {a b : Word}

/-! ## The same values as operations on words -/

theorem ofInt_tdiv : BitVec.ofInt 32 (a.toInt.tdiv b.toInt) = a.sdiv b := by
  apply BitVec.eq_of_toInt_eq
  rw [BitVec.toInt_ofInt, BitVec.toInt_sdiv]

theorem ofInt_tmod : BitVec.ofInt 32 (a.toInt.tmod b.toInt) = a.srem b := by
  rw [← BitVec.toInt_srem, BitVec.ofInt_toInt]

theorem result_div (hb : b ≠ 0) : result div a b = a.sdiv b := by
  simp only [result, hb, if_false, ofInt_tdiv]
  split
  · rename_i hoverflow
    rcases (by simpa using hoverflow : a = BitVec.intMin 32 ∧ b = BitVec.allOnes 32) with
      ⟨rfl, rfl⟩
    decide
  · rfl

theorem result_rem : result rem a b = a.srem b := by
  simp only [result, ofInt_tmod]
  split
  · rename_i hzero
    simp [hzero]
  · split
    · rename_i hoverflow
      rcases (by simpa using hoverflow : a = BitVec.intMin 32 ∧ b = BitVec.allOnes 32) with
        ⟨rfl, rfl⟩
      decide
    · rfl

theorem result_divu (hb : b ≠ 0) : result divu a b = a / b := by
  simp only [result, hb, if_false]
  apply BitVec.eq_of_toNat_eq
  simp [Nat.mod_eq_of_lt ((Nat.div_le_self _ _).trans_lt a.isLt)]

theorem result_remu : result remu a b = a % b := by
  simp only [result]
  split
  · rename_i hzero
    simp [hzero]
  · apply BitVec.eq_of_toNat_eq
    simp [Nat.mod_eq_of_lt ((Nat.mod_le _ _).trans_lt a.isLt)]

end DivOp

end Isa
end Jyd
