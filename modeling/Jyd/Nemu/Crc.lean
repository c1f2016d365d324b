import Jyd.Hdl.Signal
import Mathlib.Logic.Function.Iterate
import Mathlib.Tactic.IntervalCases

/-!
# Crc — the CRC instructions of the reference simulator

`crc_update` of `inst.c` as it runs on 32-bit words, and the feedback shift register that
it steps through: one bit of the message per round, the low bit of each byte first.
-/

namespace Jyd
namespace Nemu

open Hdl

/-- One round of the inner loop, on `value` and `crc`. -/
def crcBit (s : Word × Word) : Word × Word :=
  let x16 := (s.1 ^^^ s.2) &&& 1#32
  let value := s.1 >>> 1
  let crc := if x16 != 0#32 then s.2 ^^^ 0x4002#32 else s.2
  (value, (crc >>> 1) ||| (x16 <<< 15))

/-- The outer loop, on `data` and `crc`. -/
def crcLoop : ℕ → Word → Word → Word
  | 0, _, crc => crc
  | bytes + 1, data, crc => crcLoop bytes (data >>> 8) (crcBit^[8] (data &&& 0xff#32, crc)).2

def crcUpdate (data crc : Word) (bytes : ℕ) : Word :=
  crcLoop bytes data (crc &&& 0xffff#32) &&& 0xffff#32

/-! ## The shift register -/

/-- Shift one bit of the message into the register. -/
def crcShift (crc : BitVec 16) (bit : Bool) : BitVec 16 :=
  (crc >>> 1) ^^^ (if bit ^^ crc.getLsbD 0 then 0xa001#16 else 0#16)

/-- The bit-serial CRC of a message. -/
def crcStream (crc : BitVec 16) (message : List Bool) : BitVec 16 := message.foldl crcShift crc

def lowBits (n : ℕ) (b : BitVec 8) : List Bool := (List.range n).map b.getLsbD

/-- A byte enters with its low bit first. -/
def byteBits (b : BitVec 8) : List Bool := lowBits 8 b

theorem lowBits_succ (n : ℕ) (b : BitVec 8) : lowBits (n + 1) b = lowBits n b ++ [b.getLsbD n] := by
  simp [lowBits, List.range_succ]

theorem crcStream_append (crc : BitVec 16) (a b : List Bool) :
    crcStream crc (a ++ b) = crcStream (crcStream crc a) b := List.foldl_append

/-- A mask of `n` low bits cuts out the low part. -/
theorem and_lowMask (x : Word) {n : ℕ} (hn : n ≤ 32) :
    x &&& BitVec.ofNat 32 (2 ^ n - 1) = (x.extractLsb' 0 n).setWidth 32 := by
  have hpow : 2 ^ n ≤ 2 ^ 32 := Nat.pow_le_pow_right (by decide) hn
  have hlt : x.toNat % 2 ^ n < 2 ^ n := Nat.mod_lt _ (Nat.two_pow_pos n)
  apply BitVec.eq_of_toNat_eq
  rw [BitVec.toNat_and, BitVec.toNat_ofNat, Nat.mod_eq_of_lt (by omega),
    Nat.and_two_pow_sub_one_eq_mod, BitVec.toNat_setWidth, BitVec.extractLsb'_toNat,
    Nat.shiftRight_zero]
  exact (Nat.mod_eq_of_lt (by omega)).symm

/-- The feedback, applied before the shift and as the bit that enters at the top. -/
theorem shift_feedback (crc : BitVec 16) :
    (crc.setWidth 32 ^^^ 0x4002#32) >>> 1 ||| 1#32 <<< 15 =
      (crc >>> 1 ^^^ 0xa001#16).setWidth 32 := by
  apply BitVec.eq_of_getLsbD_eq
  intro k hk
  interval_cases k <;> simp

/-- A round of the loop is a step of the register. -/
theorem crcBit_eq (value : BitVec 8) (crc : BitVec 16) :
    crcBit (value.setWidth 32, crc.setWidth 32) =
      ((value >>> 1).setWidth 32, (crcShift crc (value.getLsbD 0)).setWidth 32) := by
  -- the loop tests the two low bits after widening them to a word
  have hx16 : (value.setWidth 32 ^^^ crc.setWidth 32) &&& 1#32 =
      if value.getLsbD 0 ^^ crc.getLsbD 0 then 1#32 else 0#32 := by
    rw [BitVec.and_one_eq_setWidth_ofBool_getLsbD, BitVec.getLsbD_xor, BitVec.getLsbD_setWidth,
      BitVec.getLsbD_setWidth]
    cases value.getLsbD 0 <;> cases crc.getLsbD 0 <;> rfl
  have hvalue : value.setWidth 32 >>> 1 = (value >>> 1).setWidth 32 :=
    (BitVec.setWidth_ushiftRight (by decide)).symm
  have hcrc : crc.setWidth 32 >>> 1 = (crc >>> 1).setWidth 32 :=
    (BitVec.setWidth_ushiftRight (by decide)).symm
  simp only [crcBit, crcShift, hx16, hvalue]
  cases value.getLsbD 0 ^^ crc.getLsbD 0 with
  | false =>
    refine Prod.ext rfl ?_
    show crc.setWidth 32 >>> 1 ||| 0#32 = (crc >>> 1 ^^^ 0#16).setWidth 32
    rw [BitVec.or_zero, BitVec.xor_zero, hcrc]
  | true => exact Prod.ext rfl (shift_feedback crc)

/-- A loop that takes the low bit of a byte into the register in each round. -/
theorem iterate_eq_crcStream {S : Type} (state : BitVec 8 → BitVec 16 → S) {step : S → S}
    (h : ∀ value crc, step (state value crc) = state (value >>> 1) (crcShift crc (value.getLsbD 0)))
    (value : BitVec 8) (crc : BitVec 16) (k : ℕ) :
    step^[k] (state value crc) = state (value >>> k) (crcStream crc (lowBits k value)) := by
  induction k with
  | zero => rw [BitVec.ushiftRight_zero]; rfl
  | succ k ih =>
    have hbit : (value >>> k).getLsbD 0 = value.getLsbD k := by
      rw [BitVec.getLsbD_ushiftRight, Nat.add_zero]
    rw [Function.iterate_succ_apply', ih, h, hbit, lowBits_succ, crcStream_append,
      ← BitVec.shiftRight_add]
    rfl

/-- The bytes of a word in the order in which they enter, `n` of them. -/
def wordBits : ℕ → Word → List Bool
  | 0, _ => []
  | n + 1, data => byteBits (data.extractLsb' 0 8) ++ wordBits n (data >>> 8)

theorem crcLoop_eq (n : ℕ) (data : Word) (crc : BitVec 16) :
    crcLoop n data (crc.setWidth 32) = (crcStream crc (wordBits n data)).setWidth 32 := by
  -- the data word is shifted down by a byte in each round, so the induction is on the rounds
  induction n generalizing data crc with
  | zero => rfl
  | succ n ih =>
    have hlow : data &&& 0xff#32 = (data.extractLsb' 0 8).setWidth 32 := by
      exact and_lowMask data (n := 8) (by decide)
    rw [crcLoop, hlow, iterate_eq_crcStream _ crcBit_eq, ih, wordBits, crcStream_append]
    rfl

/-- `crc_update` is the bit-serial CRC of the low bytes of `data`. -/
theorem crcUpdate_eq (data crc : Word) (n : ℕ) :
    crcUpdate data crc n =
      (crcStream (crc.extractLsb' 0 16) (wordBits n data)).setWidth 32 := by
  have hlow : ∀ x : Word, x &&& 0xffff#32 = (x.extractLsb' 0 16).setWidth 32 :=
    fun x => and_lowMask x (n := 16) (by decide)
  rw [crcUpdate, hlow crc, crcLoop_eq, hlow, extractLsb'_setWidth _ (by decide)]

end Nemu
end Jyd
