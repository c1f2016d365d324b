import Jyd.Hdl.ByteMemory
import Jyd.Core.Idu
import Jyd.Core.Lsu

/-!
# Addressing — effective addresses and byte lanes

The split adder of IDU against the addition of a signed offset, and the byte lanes
of LSU against loads and stores on a byte memory.
-/

namespace Jyd
namespace Core

open Hdl

/-! ## The split adder -/

namespace IDU

theorem signExtend_toNat (imm : BitVec 12) :
    (imm.signExtend 32).toNat % 65536 = (imm.signExtend 16).toNat ∧
      (imm.signExtend 32).toNat = imm.toNat + (if imm.getLsbD 11 then 2 ^ 32 - 4096 else 0) := by
  have himm := imm.isLt
  have hmsb : imm.msb = imm.getLsbD 11 := rfl
  simp only [BitVec.toNat_signExtend, BitVec.toNat_setWidth, hmsb]
  split <;> omega

/-- The sum of the low halves, with its carry. -/
theorem lowSum_toNat (base : Word) (imm : BitVec 12) :
    ((base.extractLsb' 0 16).setWidth 17 + (imm.signExtend 16).setWidth 17 : BitVec 17).toNat =
      base.toNat % 65536 + (imm.signExtend 16).toNat := by
  have himm := (imm.signExtend 16).isLt
  simp only [BitVec.toNat_add, BitVec.toNat_setWidth, BitVec.extractLsb'_toNat, Nat.shiftRight_zero]
  omega

theorem lowSum_extract (base : Word) (imm : BitVec 12) :
    ((base.extractLsb' 0 16).setWidth 17 + (imm.signExtend 16).setWidth 17 : BitVec 17).extractLsb'
      0 16 = (base + imm.signExtend 32).extractLsb' 0 16 := by
  have hsign := signExtend_toNat imm
  have hlow := lowSum_toNat base imm
  have hsum := BitVec.toNat_add base (imm.signExtend 32)
  apply BitVec.eq_of_toNat_eq
  rw [BitVec.extractLsb'_toNat, BitVec.extractLsb'_toNat, Nat.shiftRight_zero, Nat.shiftRight_zero,
    hlow, hsum]
  omega

/-- A positive offset carries out of the low half of the base. -/
def CarriesUp (base : Word) (imm : BitVec 12) : Prop :=
  imm.toNat < 2048 ∧ 65536 ≤ base.toNat % 65536 + imm.toNat

instance (base : Word) (imm : BitVec 12) : Decidable (CarriesUp base imm) :=
  inferInstanceAs (Decidable (_ ∧ _))

theorem carriesUp_iff (base : Word) (imm : BitVec 12) :
    (!imm.getLsbD 11 && ((base.extractLsb' 0 16).setWidth 17 +
      (imm.signExtend 16).setWidth 17 : BitVec 17).getLsbD 16) = true ↔ CarriesUp base imm := by
  have hsign : imm.getLsbD 11 = decide (2048 ≤ imm.toNat) :=
    (BitVec.msb_eq_getLsbD_last imm).symm.trans (BitVec.msb_eq_decide imm)
  -- bit 16 of the 17-bit sum is its carry
  have hcarry : ((base.extractLsb' 0 16).setWidth 17 + (imm.signExtend 16).setWidth 17 :
      BitVec 17).getLsbD 16 = decide (65536 ≤ base.toNat % 65536 + (imm.signExtend 16).toNat) := by
    rw [← lowSum_toNat base imm]
    exact (BitVec.msb_eq_getLsbD_last _).symm.trans (BitVec.msb_eq_decide _)
  have hext := signExtend_toNat imm
  have himm := imm.isLt
  rw [hcarry, hsign, CarriesUp]
  rw [hsign] at hext
  simp only [Bool.and_eq_true, Bool.not_eq_true', decide_eq_false_iff_not, decide_eq_true_eq,
    Nat.not_le] at hext ⊢
  split at hext <;> omega

/-- The upper part of the address, with the carries that the adder knows. -/
def addrHigh (base : Word) (imm : BitVec 12) : BitVec 6 :=
  if CarriesUp base imm ∧ base.toNat / 4096 % 512 = 511 then 0x20
  else if CarriesUp base imm ∧ base.toNat / 4096 % 256 = 255 then 0x10
  else base.extractLsb' 16 6

theorem extract_eq_iff {w : ℕ} (x : Word) (k : ℕ) (y : BitVec w) :
    (x.extractLsb' k w == y) = true ↔ x.toNat / 2 ^ k % 2 ^ w = y.toNat := by
  rw [beq_iff_eq, ← BitVec.toNat_inj, BitVec.extractLsb'_toNat, Nat.shiftRight_eq_div_pow]

/-- The low half of the split adder is that of a full one. -/
theorem addAddrImm_eq (base : Word) (imm : BitVec 12) :
    addAddrImm base imm = addrHigh base imm ++ (base + imm.signExtend 32).extractLsb' 0 16 := by
  have hperip := extract_eq_iff base 12 0x1ff#9
  have hdram := extract_eq_iff base 12 0xff#8
  simp only [addAddrImm, lowSum_extract, addrHigh, ← carriesUp_iff, Bool.and_right_comm _ (_ == _),
    Bool.and_eq_true (_ && _), hperip, hdram]
  rfl

/-- Without a carry into a region the upper part is that of the base. -/
theorem addrHigh_of_page {base : Word} {imm : BitVec 12}
    (h : CarriesUp base imm → base.toNat / 4096 % 256 ≠ 255) :
    addrHigh base imm = base.extractLsb' 16 6 := by
  have hperip : ¬ (CarriesUp base imm ∧ base.toNat / 4096 % 512 = 511) := by
    rintro ⟨hup, hpage⟩
    exact h hup (by omega)
  have hdram : ¬ (CarriesUp base imm ∧ base.toNat / 4096 % 256 = 255) := by
    rintro ⟨hup, hpage⟩
    exact h hup hpage
  rw [addrHigh, if_neg hperip, if_neg hdram]

/-- The address that leaves the core, under its fixed prefix. -/
theorem emitted_toNat (base : Word) (imm : BitVec 12) :
    (0x80#8 ++ 0#2 ++ addAddrImm base imm : Word).toNat =
      0x80000000 + (addrHigh base imm).toNat * 65536 + (base + imm.signExtend 32).toNat % 65536 := by
  have hhigh := (addrHigh base imm).isLt
  have hlow : ((base + imm.signExtend 32).extractLsb' 0 16).toNat =
      (base + imm.signExtend 32).toNat % 65536 := by
    rw [BitVec.extractLsb'_toNat, Nat.shiftRight_zero]
  have hlt := ((base + imm.signExtend 32).extractLsb' 0 16).isLt
  rw [addAddrImm_eq, BitVec.toNat_append, BitVec.toNat_append (addrHigh base imm),
    ← Nat.shiftLeft_add_eq_or_of_lt hlt]
  rw [← Nat.shiftLeft_add_eq_or_of_lt (by rw [Nat.shiftLeft_eq]; omega), hlow,
    Nat.shiftLeft_eq, Nat.shiftLeft_eq, show (0x80#8 ++ 0#2 : BitVec 10).toNat = 512 from rfl]
  omega

/-- Inside the data RAM the split adder is an adder exactly on the 64 KB page of the base. -/
theorem addAddrImm_eq_iff {base : Word} {imm : BitVec 12}
    (hbase : 0x80100000 ≤ base.toNat ∧ base.toNat < 0x80200000)
    (hsum : (base + imm.signExtend 32).toNat < 0x80200000) :
    0x80#8 ++ 0#2 ++ addAddrImm base imm = base + imm.signExtend 32 ↔
      base.toNat / 65536 = (base + imm.signExtend 32).toNat / 65536 := by
  have hsign := signExtend_toNat imm
  have hsumNat := BitVec.toNat_add base (imm.signExtend 32)
  -- a base in the last page of the RAM carries out of the RAM
  have hpage : CarriesUp base imm → base.toNat / 4096 % 256 ≠ 255 := by
    rintro ⟨hpos, hup⟩ hlast
    have hmsb : imm.getLsbD 11 = false := by
      rw [← BitVec.msb_eq_getLsbD_last, BitVec.msb_eq_decide]
      simpa using hpos
    rw [hmsb] at hsign
    simp only [Bool.false_eq_true, if_false] at hsign
    omega
  rw [← BitVec.toNat_inj, emitted_toNat, addrHigh_of_page hpage, BitVec.extractLsb'_toNat,
    Nat.shiftRight_eq_div_pow]
  omega

end IDU

/-! ## Widths of loads and stores -/

/-- The bytes that an access of this width covers. -/
def accessBytes (func3t : BitVec 3) : ℕ :=
  if func3t.getLsbD 1 then 4 else if func3t.getLsbD 0 then 2 else 1

def supportedStoreWidth (func3t : BitVec 3) : Bool :=
  func3t == 0b000#3 || func3t == 0b001#3 || func3t == 0b010#3

/-- The value of a load from a byte memory. -/
def loadValue (B : Bytes) (a : Word) (func3t : BitVec 3) : Word :=
  match func3t with
  | 0b000#3 => (B a).signExtend 32
  | 0b001#3 => (B (a + 1#32) ++ B a).signExtend 32
  | 0b100#3 => (B a).setWidth 32
  | 0b101#3 => (B (a + 1#32) ++ B a).setWidth 32
  | _ => B.word a

theorem offset_toNat (a : Word) : (a.extractLsb' 0 2).toNat = a.toNat % 4 := by
  simp only [BitVec.extractLsb'_toNat, Nat.shiftRight_zero]

theorem GenMemWMask_getLsbD : ∀ (offset : BitVec 2) (func3t : BitVec 3),
    supportedStoreWidth func3t = true → offset.toNat % accessBytes func3t = 0 → ∀ k < 4,
      (GenMemWMask offset func3t).getLsbD k =
        decide (offset.toNat ≤ k ∧ k < offset.toNat + accessBytes func3t) := by
  decide +kernel

theorem access_in_word : ∀ (offset : BitVec 2) (func3t : BitVec 3),
    offset.toNat % accessBytes func3t = 0 → offset.toNat + accessBytes func3t ≤ 4 := by
  decide +kernel

theorem accessBytes_eq (func3t : BitVec 3) :
    accessBytes func3t = 1 ∨ accessBytes func3t = 2 ∨ accessBytes func3t = 4 := by
  unfold accessBytes
  split
  · exact Or.inr (Or.inr rfl)
  · split
    · exact Or.inr (Or.inl rfl)
    · exact Or.inl rfl

/-- Alignment of an address is alignment of its offset in the word. -/
theorem mod_four_aligned {n : ℕ} {func3t : BitVec 3} (h : n % accessBytes func3t = 0) :
    n % 4 % accessBytes func3t = 0 := by
  rcases accessBytes_eq func3t with hw | hw | hw <;> rw [hw] at h ⊢ <;> omega

theorem byteOf_GenMemWData {offset : BitVec 2} {func3t : BitVec 3} (data : Word)
    (haligned : offset.toNat % accessBytes func3t = 0) {k : ℕ} (hk : k < accessBytes func3t) :
    byteOf (GenMemWData offset data) (offset.toNat + k) = byteOf data k := by
  have hword := access_in_word offset func3t haligned
  -- an odd offset is a byte access, and offset 2 is at most a halfword
  have hcases : (offset = 0#2 ∧ k < 4) ∨ (offset = 1#2 ∧ k = 0) ∨ (offset = 2#2 ∧ k < 2) ∨
      (offset = 3#2 ∧ k = 0) := by
    simp only [← BitVec.toNat_inj, BitVec.toNat_ofNat]
    rcases accessBytes_eq func3t with h | h | h <;> rw [h] at haligned hword hk <;> omega
  apply BitVec.eq_of_getLsbD_eq
  intro n hn
  rcases hcases with ⟨rfl, hk⟩ | ⟨rfl, rfl⟩ | ⟨rfl, hk⟩ | ⟨rfl, rfl⟩ <;>
    simp only [GenMemWData, getLsbD_byteOf, BitVec.toNat_ofNat] <;> grind

theorem fill_append_eq_signExtend {w v : ℕ} (b : BitVec (w + 1)) :
    fill v (b.getLsbD w) ++ b = b.signExtend (v + (w + 1)) := by
  apply BitVec.eq_of_getLsbD_eq
  intro n hn
  simp only [BitVec.getLsbD_append, BitVec.getLsbD_signExtend, fill, BitVec.msb_eq_getLsbD_last]
  cases h : b.getLsbD w <;> simp <;> grind

theorem fill_false_append {w v : ℕ} (b : BitVec w) (x : Bool) :
    fill v (x && false) ++ b = b.setWidth (v + w) := by
  apply BitVec.eq_of_getLsbD_eq
  intro n hn
  simp only [Bool.and_false, fill, BitVec.getLsbD_append, BitVec.getLsbD_setWidth]
  grind

/-- The halfword that a load selects from a word. -/
theorem halfword_eq (raw : Word) {offset : BitVec 2} (h : offset.toNat % 2 = 0) :
    (if offset.getLsbD 1 then raw.extractLsb' 16 16 else raw.extractLsb' 0 16) =
      byteOf raw (offset.toNat + 1) ++ byteOf raw offset.toNat := by
  have hcases : offset = 0#2 ∨ offset = 2#2 := by
    have hlt := offset.isLt
    simp only [← BitVec.toNat_inj, BitVec.toNat_ofNat]
    omega
  apply BitVec.eq_of_getLsbD_eq
  intro n hn
  rcases hcases with rfl | rfl <;>
    simp only [BitVec.getLsbD_append, getLsbD_byteOf] <;>
    grind

/-- A load extracts the value at its address from the word around it. -/
theorem ExtLoadData_eq {raw : Word} {B : Bytes} {a : Word} {func3t : BitVec 3}
    (hwidth : supportedLoadWidth func3t = true) (haligned : a.toNat % accessBytes func3t = 0)
    (hbytes : ∀ k, a.toNat % 4 + k < 4 → byteOf raw (a.toNat % 4 + k) = B (a + BitVec.ofNat 32 k)) :
    ExtLoadData raw (a.extractLsb' 0 2) func3t = loadValue B a func3t := by
  have hoff := offset_toNat a
  have hbyte : byteOf raw (a.toNat % 4) = B a := by
    simpa using hbytes 0 (Nat.mod_lt _ (by decide))
  have hlow : raw.extractLsb' (8 * (a.extractLsb' 0 2).toNat) 8 = B a := by
    rw [hoff]
    exact hbyte
  have hhalf : a.toNat % 2 = 0 →
      (if (a.extractLsb' 0 2).getLsbD 1 then raw.extractLsb' 16 16 else raw.extractLsb' 0 16) =
        B (a + 1#32) ++ B a := by
    intro h
    rw [halfword_eq raw (by omega), hoff, hbyte, hbytes 1 (by omega)]
  have hcases : func3t = 0b000#3 ∨ func3t = 0b001#3 ∨ func3t = 0b010#3 ∨ func3t = 0b100#3 ∨
      func3t = 0b101#3 := by
    simpa [supportedLoadWidth, or_assoc] using hwidth
  unfold ExtLoadData
  rw [hlow]
  -- lb, lh, lw, lbu and lhu
  rcases hcases with rfl | rfl | rfl | rfl | rfl
  · exact (congrArg (fun b => fill 24 b ++ B a) (Bool.and_true _)).trans
      (fill_append_eq_signExtend (v := 24) (B a))
  · rw [hhalf haligned]
    exact (congrArg (fun b => fill 16 b ++ (B (a + 1#32) ++ B a)) (Bool.and_true _)).trans
      (fill_append_eq_signExtend (v := 16) (B (a + 1#32) ++ B a))
  · have hzero : a.toNat % 4 = 0 := haligned
    change raw = B.word a
    refine eq_of_byteOf fun k hk => ?_
    rw [Bytes.word, byteOf_ofBytes _ hk, ← hbytes k (by omega), hzero, Nat.zero_add]
  · exact fill_false_append (v := 24) (B a) _
  · rw [hhalf haligned]
    exact fill_false_append (v := 16) (B (a + 1#32) ++ B a) _

end Core
end Jyd
