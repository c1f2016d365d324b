import Jyd.Nemu.Inst

/-!
# Xmsum — the clipped matrix sum of the reference simulator

`matrix_clipped_sum` of `inst.c`: one loop over the words of the matrix.  The sum wraps
like a machine word and the score like a half word.
-/

namespace Jyd
namespace Nemu

open Hdl

/-- The variables of the loop. -/
structure ClippedSum where
  tmp : Word
  prev : Word
  ret : BitVec 16
  deriving DecidableEq, Repr

/-- One iteration, for the word `cur`. -/
def ClippedSum.step (clip : Word) (s : ClippedSum) (cur : Word) : ClippedSum :=
  let tmp := s.tmp + cur
  if clip.slt tmp then { tmp := 0, prev := cur, ret := s.ret + 10 }
  else { tmp := tmp, prev := cur, ret := s.ret + (BitVec.ofBool (s.prev.slt cur)).setWidth 16 }

/-- The address of word `i` of the matrix. -/
def elementAddr (data : Word) (i : ℕ) : Word := data + BitVec.ofNat 32 (i * 4)

def clippedLoop (pmem : Pmem) (data clip : Word) : ℕ → ClippedSum
  | 0 => ⟨0, 0, 0⟩
  | i + 1 => (clippedLoop pmem data clip i).step clip (vaddrRead pmem (elementAddr data i))

/-- The result, and the number of words of the matrix. -/
def matrixClippedSum (pmem : Pmem) (data config : Word) : Word × ℕ :=
  let n := config >>> 16
  let clip := ((config &&& 0xffff#32).setWidth 16).signExtend 32
  let elements := n.toNat * n.toNat
  ((clippedLoop pmem data clip elements).ret.signExtend 32, elements)

/-! ## The fields of `config` -/

theorem config_size (config : Word) : (config >>> 16).toNat = (config.extractLsb' 16 16).toNat := by
  have h := config.isLt
  rw [BitVec.toNat_ushiftRight, BitVec.extractLsb'_toNat]
  exact (Nat.mod_eq_of_lt (by rw [Nat.shiftRight_eq_div_pow]; omega)).symm

theorem config_clip (config : Word) :
    (config &&& 0xffff#32).setWidth 16 = config.extractLsb' 0 16 := by
  apply BitVec.eq_of_toNat_eq
  have hmask : (0xffff#32).toNat = 2 ^ 16 - 1 := rfl
  rw [BitVec.toNat_setWidth, BitVec.toNat_and, hmask, Nat.and_two_pow_sub_one_eq_mod,
    BitVec.extractLsb'_toNat, Nat.mod_mod, Nat.shiftRight_zero]

/-- The words of an aligned matrix are aligned. -/
theorem elementAddr_aligned {data : Word} (h : data.toNat % 4 = 0) (i : ℕ) :
    (elementAddr data i).toNat % 4 = 0 := by
  rw [elementAddr, BitVec.toNat_add, BitVec.toNat_ofNat]
  omega

theorem elementAddr_succ (data : Word) (i : ℕ) :
    elementAddr data (i + 1) = elementAddr data i + 4 := by
  apply BitVec.eq_of_toNat_eq
  have hfour : (4 : Word).toNat = 4 := rfl
  rw [elementAddr, elementAddr, BitVec.toNat_add, BitVec.toNat_add, BitVec.toNat_add,
    BitVec.toNat_ofNat, BitVec.toNat_ofNat, hfour]
  omega

theorem elementAddr_zero (data : Word) : elementAddr data 0 = data := by
  rw [elementAddr]
  exact BitVec.add_zero data

end Nemu
end Jyd
