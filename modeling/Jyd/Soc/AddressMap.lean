import Jyd.Core.Addressing
import Jyd.Core.Decoded
import Jyd.Soc.PowerUp

/-!
# AddressMap — the addresses that leave the core against the ranges of the SoC

The core adds a full offset to the low half of a base register only; bits `21..16` are
copied or replaced.  For loads and stores this is enough to reach the location that the
full sum names, as long as the sum lies in the data RAM or among the peripherals.  A
`jalr` uses the same adder inside the code window, where no carry is known to it.
-/

namespace Jyd
namespace Soc

open Hdl Jyd.Core JYDPeripheralBridge

/-! ## Ranges -/

namespace AddrSpace

def DRAM : Word × Word := (0x80100000#32, 0x80110000#32)
def MMIO : Word × Word := (0x80200000#32, 0x80200100#32)

/-- The addresses that `TrimmedPC` represents. -/
def CODE : Word × Word := (0x80000000#32, 0x80020000#32)

def Within (x : Word) (rng : Word × Word) : Prop := rng.1.toNat ≤ x.toNat ∧ x.toNat < rng.2.toNat

instance (x : Word) (rng : Word × Word) : Decidable (Within x rng) :=
  inferInstanceAs (Decidable (_ ∧ _))

/-- What the key bits `21..20` of an address select. -/
inductive Region
  | irom
  | dram
  | mmio
  deriving DecidableEq, Repr

def region (x : Word) : Region :=
  if x.getLsbD 21 then .mmio else if x.getLsbD 20 then .dram else .irom

theorem region_of_dram {x : Word} (h : Within x DRAM) : region x = .dram := by
  have hrng : 0x80100000 ≤ x.toNat ∧ x.toNat < 0x80110000 := h
  have h21 : ¬ x.toNat / 2 ^ 21 % 2 = 1 := by omega
  have h20 : x.toNat / 2 ^ 20 % 2 = 1 := by omega
  rw [region, getLsbD_eq_decide, getLsbD_eq_decide, decide_eq_false h21, decide_eq_true h20]
  rfl

theorem region_of_mmio {x : Word} (h : Within x MMIO) : region x = .mmio := by
  have hrng : 0x80200000 ≤ x.toNat ∧ x.toNat < 0x80200100 := h
  have h21 : x.toNat / 2 ^ 21 % 2 = 1 := by omega
  rw [region, getLsbD_eq_decide, decide_eq_true h21]
  rfl

end AddrSpace

open AddrSpace

/-- Two addresses that no device and no memory of the SoC tells apart. -/
structure SameLocation (x y : Word) : Prop where
  region : region x = region y
  targetSel : targetSel x = targetSel y
  offset : x.extractLsb' 0 16 = y.extractLsb' 0 16

theorem sameLocation_of_key {x y : Word} (hkey : x.extractLsb' 20 2 = y.extractLsb' 20 2)
    (hoffset : x.extractLsb' 0 16 = y.extractLsb' 0 16) : SameLocation x y := by
  have hbit : ∀ k < 2, x.getLsbD (20 + k) = y.getLsbD (20 + k) := by
    intro k hk
    have hk' := congrArg (fun z => z.getLsbD k) hkey
    simpa [BitVec.getLsbD_extractLsb', hk] using hk'
  have h20 : x.getLsbD 20 = y.getLsbD 20 := hbit 0 (by decide)
  have h21 : x.getLsbD 21 = y.getLsbD 21 := hbit 1 (by decide)
  have hlow : x.extractLsb' 4 4 = y.extractLsb' 4 4 := by
    apply BitVec.eq_of_getLsbD_eq
    intro k hk
    have hk' := congrArg (fun z => z.getLsbD (4 + k)) hoffset
    have hlt : 4 + k < 16 := by omega
    simpa only [BitVec.getLsbD_extractLsb', hk, hlt, Nat.zero_add, decide_true, Bool.true_and]
      using hk'
  have hrng : ∀ start, inRng x start = inRng y start := by
    intro start
    rw [inRng, inRng, h20, h21, hlow]
  refine ⟨?_, ?_, hoffset⟩
  · rw [AddrSpace.region, AddrSpace.region, h20, h21]
  · simp only [JYDPeripheralBridge.targetSel, hrng]

/-! ## Loads and stores -/

/-- The offset of a load or store, from the fields of its format. -/
def addressOffset (inst : Word) : BitVec 12 :=
  if IDU.isTyp inst .store then inst.extractLsb' 25 7 ++ inst.extractLsb' 7 5
  else inst.extractLsb' 20 12

/-- The full sum of the base register and the offset. -/
def effectiveAddress (j : IDU.In) : Word :=
  IDU.addressBase j + (addressOffset (IDU.inst j)).signExtend 32

def accessesMemory (inst : Word) : Bool := IDU.isTyp inst .load || IDU.isTyp inst .store

/-- The types that only one opcode has. -/
theorem opcode_of_typ {inst : Word} {typ : InstType} (op : BitVec 5)
    (hop : (typ, op) ∈ [(.load, 0b00000#5), (.store, 0b01000#5), (.jalr, 0b11001#5)])
    (h : IDU.isTyp inst typ = true) : (inst.extractLsb' 0 7).extractLsb' 2 5 = op := by
  have hdont : IDU.dontcare.typ = .arithmetic := by rcases IDU.dontcare_eq with h | h <;> rw [h]
  simp only [IDU.isTyp, IDU.metaInfo, InstInfoDecoder, beq_iff_eq] at h
  simp only [List.mem_cons, Prod.mk.injEq, List.not_mem_nil, or_false] at hop
  rcases hop with ⟨rfl, rfl⟩ | ⟨rfl, rfl⟩ | ⟨rfl, rfl⟩ <;> split at h <;>
    first | assumption | exact absurd h (by simp [hdont])

/-- The two opcode bits that select the format of the offset. -/
theorem storeEncoding_of_opcode {inst : Word} {op : BitVec 5}
    (h : (inst.extractLsb' 0 7).extractLsb' 2 5 = op) :
    inst.extractLsb' 5 2 = op.extractLsb' 3 2 := by
  rw [← h]
  apply BitVec.eq_of_getLsbD_eq
  intro k hk
  have h5 : 3 + k < 5 := by omega
  have h7 : 5 + k < 7 := by omega
  have hsum : 2 + (3 + k) = 5 + k := by omega
  simp only [BitVec.getLsbD_extractLsb', hk, h5, h7, decide_true, Bool.true_and, Nat.zero_add, hsum]

theorem iFormat_eq (inst : Word) :
    inst.extractLsb' 25 7 ++ inst.extractLsb' 20 5 = inst.extractLsb' 20 12 := by
  apply BitVec.eq_of_getLsbD_eq
  intro k hk
  simp only [BitVec.getLsbD_append, BitVec.getLsbD_extractLsb']
  grind

theorem addrImm12_of_iFormat {inst : Word} (h : inst.extractLsb' 5 2 ≠ 0b01#2) :
    IDU.addrImm12 inst = inst.extractLsb' 20 12 := by
  have hne : (inst.extractLsb' 5 2 == 0b01#2) = false := by simpa using h
  rw [IDU.addrImm12, hne, ← iFormat_eq]
  rfl

theorem addrImm12_eq_addressOffset {inst : Word} (h : accessesMemory inst = true) :
    IDU.addrImm12 inst = addressOffset inst := by
  cases hstore : IDU.isTyp inst .store with
  | true =>
    have hbits : inst.extractLsb' 5 2 = 0b01#2 :=
      storeEncoding_of_opcode (opcode_of_typ 0b01000#5 (by decide) hstore)
    rw [addressOffset, hstore, IDU.addrImm12, hbits]
    rfl
  | false =>
    have hload : IDU.isTyp inst .load = true := by simpa [accessesMemory, hstore] using h
    have hbits : inst.extractLsb' 5 2 = 0b00#2 :=
      storeEncoding_of_opcode (opcode_of_typ 0b00000#5 (by decide) hload)
    rw [addressOffset, hstore, addrImm12_of_iFormat (by rw [hbits]; decide)]
    rfl

/-- Bits `21..20` of the emitted address are those of the sum. -/
theorem addrHigh_of_within {base : Word} {imm : BitVec 12}
    (h : Within (base + imm.signExtend 32) DRAM ∨ Within (base + imm.signExtend 32) MMIO) :
    (IDU.addrHigh base imm).toNat / 16 = (base + imm.signExtend 32).toNat / 2 ^ 20 % 4 := by
  have hbase := base.isLt
  have himm := imm.isLt
  have hmsb : imm.getLsbD 11 = decide (2048 ≤ imm.toNat) :=
    (BitVec.msb_eq_getLsbD_last imm).symm.trans (BitVec.msb_eq_decide imm)
  have hsign := (IDU.signExtend_toNat imm).2
  rw [hmsb] at hsign
  simp only [decide_eq_true_eq] at hsign
  have hsum := BitVec.toNat_add base (imm.signExtend 32)
  have hrng : (0x80100000 ≤ (base + imm.signExtend 32).toNat ∧
      (base + imm.signExtend 32).toNat < 0x80110000) ∨
      (0x80200000 ≤ (base + imm.signExtend 32).toNat ∧
      (base + imm.signExtend 32).toNat < 0x80200100) := h
  have hcarries : IDU.CarriesUp base imm ↔
      imm.toNat < 2048 ∧ 65536 ≤ base.toNat % 65536 + imm.toNat := Iff.rfl
  -- a positive offset may carry into the region, a negative one leaves the key bits alone
  by_cases hperip : IDU.CarriesUp base imm ∧ base.toNat / 4096 % 512 = 511
  · have h20 : (0x20 : BitVec 6).toNat = 32 := rfl
    rw [IDU.addrHigh, if_pos hperip, h20]
    rw [hcarries] at hperip
    split at hsign <;> omega
  · by_cases hdram : IDU.CarriesUp base imm ∧ base.toNat / 4096 % 256 = 255
    · have h10 : (0x10 : BitVec 6).toNat = 16 := rfl
      rw [IDU.addrHigh, if_neg hperip, if_pos hdram, h10]
      rw [hcarries] at hperip hdram
      split at hsign <;> omega
    · -- without a carry the base lies in the same mebibyte as the sum
      have hkey : base.toNat / 2 ^ 20 = (base + imm.signExtend 32).toNat / 2 ^ 20 := by
        rw [hcarries] at hperip hdram
        rcases hrng with hrng | hrng
        · clear hperip
          split at hsign <;> omega
        · clear hdram
          split at hsign <;> omega
      rw [IDU.addrHigh, if_neg hperip, if_neg hdram, BitVec.extractLsb'_toNat,
        Nat.shiftRight_eq_div_pow, ← hkey]
      omega

theorem sameLocation_of_within {base : Word} {imm : BitVec 12}
    (h : Within (base + imm.signExtend 32) DRAM ∨ Within (base + imm.signExtend 32) MMIO) :
    SameLocation (0x80#8 ++ 0#2 ++ IDU.addAddrImm base imm) (base + imm.signExtend 32) := by
  have hemitted := IDU.emitted_toNat base imm
  have hhigh := addrHigh_of_within h
  apply sameLocation_of_key
  · apply BitVec.eq_of_toNat_eq
    rw [BitVec.extractLsb'_toNat, BitVec.extractLsb'_toNat, Nat.shiftRight_eq_div_pow,
      Nat.shiftRight_eq_div_pow, hemitted]
    have hlt := (IDU.addrHigh base imm).isLt
    omega
  · apply BitVec.eq_of_toNat_eq
    rw [BitVec.extractLsb'_toNat, BitVec.extractLsb'_toNat, Nat.shiftRight_zero, Nat.shiftRight_zero,
      hemitted]
    omega

section Emitted

variable {j : IDU.In} {r : EXU.Regs} {i : EXU.In}

theorem memReq_addr (hmem : accessesMemory (IDU.inst j) = true) (hd : i.dinst = IDU.outBits j) :
    (EXU.memReq r i).addr =
      0x80#8 ++ 0#2 ++ IDU.addAddrImm (IDU.addressBase j) (addressOffset (IDU.inst j)) := by
  have hneed : EXU.needMemReq (IDU.outBits j) = true := hmem
  -- loads and stores use none of the controllers that share the port
  have harith : EXU.isTypArithmetic (IDU.outBits j) = false := by
    rw [EXU.needMemReq, Bool.or_eq_true] at hneed
    rcases hneed with h | h <;> simp_all [EXU.isTypLoad, EXU.isTypStore, EXU.isTypArithmetic]
  rcases EXU.not_accelerator (d := IDU.outBits j) ⟨j, rfl⟩ harith with ⟨hdfa, hlist, hsum⟩
  rw [← addrImm12_eq_addressOffset hmem]
  simp only [EXU.memReq, hd, EXU.isNumericDfaStep, hlist, hsum, hdfa, Bool.false_and,
    Bool.false_eq_true, if_false]
  rfl

/-- A load or store whose full address lies in the data RAM or among the peripherals
reaches that location, wherever its base register points. -/
theorem emitted_address_selects_location (hmem : accessesMemory (IDU.inst j) = true)
    (hd : i.dinst = IDU.outBits j)
    (hin : Within (effectiveAddress j) DRAM ∨ Within (effectiveAddress j) MMIO) :
    SameLocation (EXU.memReq r i).addr (effectiveAddress j) ∧
      (Within (effectiveAddress j) DRAM → region (EXU.memReq r i).addr = .dram) ∧
      (Within (effectiveAddress j) MMIO → region (EXU.memReq r i).addr = .mmio) := by
  have hsame : SameLocation (EXU.memReq r i).addr (effectiveAddress j) := by
    rw [memReq_addr hmem hd]
    exact sameLocation_of_within hin
  refine ⟨hsame, ?_, ?_⟩
  · intro hdram
    rw [hsame.region, region_of_dram hdram]
  · intro hmmio
    rw [hsame.region, region_of_mmio hmmio]

end Emitted

/-- `lw x2, 4(x1)` from just before the data RAM, `lw x2, -4(x1)` from one past its end. -/
theorem emitted_address_selects_location_boundary :
    region (EXU.memReq PowerUp.exu (exuOf (decoding 0x0040a103#32 0x800ffffc#32))).addr = .dram ∧
      SameLocation (EXU.memReq PowerUp.exu (exuOf (decoding 0xffc0a103#32 0x80110000#32))).addr
        0x8010fffc#32 := by
  have hbefore := emitted_address_selects_location (r := PowerUp.exu)
    (j := decoding 0x0040a103#32 0x800ffffc#32) (i := exuOf (decoding 0x0040a103#32 0x800ffffc#32))
    (by decide) rfl (by decide)
  have hbehind := emitted_address_selects_location (r := PowerUp.exu)
    (j := decoding 0xffc0a103#32 0x80110000#32) (i := exuOf (decoding 0xffc0a103#32 0x80110000#32))
    (by decide) rfl (by decide)
  exact ⟨hbefore.2.1 (by decide), hbehind.1⟩

/-! ## Indirect jumps -/

/-- The target that RISC-V defines: the sum with its lowest bit cleared. -/
def jalrTarget (base : Word) (imm : BitVec 12) : Word :=
  (base + imm.signExtend 32).extractLsb' 1 31 ++ 0#1

theorem jalrTarget_toNat (base : Word) (imm : BitVec 12) :
    (jalrTarget base imm).toNat = (base + imm.signExtend 32).toNat / 2 * 2 := by
  have hlt := (base + imm.signExtend 32).isLt
  rw [jalrTarget, BitVec.toNat_append, ← Nat.shiftLeft_add_eq_or_of_lt (BitVec.isLt 0#1),
    BitVec.extractLsb'_toNat, Nat.shiftLeft_eq, Nat.shiftRight_eq_div_pow]
  simp only [BitVec.toNat_ofNat]
  omega

/-- No carry is known inside the code window, so bit 16 of the base stays. -/
theorem trim_emitted {base : Word} (imm : BitVec 12) (hbase : Within base CODE) :
    (TrimmedPC.trim (0x80#8 ++ 0#2 ++ IDU.addAddrImm base imm)).toNat =
      base.toNat / 65536 % 2 * 16384 + (base + imm.signExtend 32).toNat % 65536 / 4 := by
  have hrng : 0x80000000 ≤ base.toNat ∧ base.toNat < 0x80020000 := hbase
  have hpage : IDU.addrHigh base imm = base.extractLsb' 16 6 :=
    IDU.addrHigh_of_page fun _ => by omega
  have hemitted := IDU.emitted_toNat base imm
  rw [hpage, BitVec.extractLsb'_toNat, Nat.shiftRight_eq_div_pow] at hemitted
  rw [TrimmedPC.trim, BitVec.extractLsb'_toNat, Nat.shiftRight_eq_div_pow, hemitted]
  omega

section Jump

variable {j : IDU.In} {r : EXU.Regs} {i : EXU.In}

theorem nxtPC_of_jalr (hjalr : IDU.isTyp (IDU.inst j) .jalr = true) (hd : i.dinst = IDU.outBits j) :
    EXU.nxtPC r i = TrimmedPC.expand (TrimmedPC.trim
      (0x80#8 ++ 0#2 ++
        IDU.addAddrImm (IDU.addressBase j) ((IDU.inst j).extractLsb' 20 12))) := by
  have htyp : EXU.isTypJALR (IDU.outBits j) = true := hjalr
  have harith : EXU.isTypArithmetic (IDU.outBits j) = false := by
    simp_all [EXU.isTypJALR, EXU.isTypArithmetic]
  have hloop := EXU.not_listReverseLoop (d := IDU.outBits j) ⟨j, rfl⟩ harith
  -- the offset of a jump has the format of a load
  have hbits : (IDU.inst j).extractLsb' 5 2 = 0b11#2 :=
    storeEncoding_of_opcode (opcode_of_typ 0b11001#5 (by decide) hjalr)
  rw [← addrImm12_of_iFormat (by rw [hbits]; decide)]
  simp only [EXU.nxtPC, EXU.listReverseLoopBranch, EXU.normalNxtPC, hd, hloop, htyp, Bool.false_and,
    Bool.false_eq_true, if_false, if_true]
  rfl

/-- A `jalr` inside the code window reaches its target exactly when base register and
target lie in the same half of the window. -/
theorem jalr_reaches_target_iff (hjalr : IDU.isTyp (IDU.inst j) .jalr = true)
    (hd : i.dinst = IDU.outBits j) (hbase : Within (IDU.addressBase j) CODE)
    (htarget : Within (jalrTarget (IDU.addressBase j) ((IDU.inst j).extractLsb' 20 12)) CODE)
    (haligned : (jalrTarget (IDU.addressBase j) ((IDU.inst j).extractLsb' 20 12)).toNat % 4 = 0) :
    EXU.nxtPC r i = jalrTarget (IDU.addressBase j) ((IDU.inst j).extractLsb' 20 12) ↔
      (IDU.addressBase j).getLsbD 16 =
        (jalrTarget (IDU.addressBase j) ((IDU.inst j).extractLsb' 20 12)).getLsbD 16 := by
  generalize hb : IDU.addressBase j = base at *
  generalize hi : (IDU.inst j).extractLsb' 20 12 = imm at *
  have hnext := nxtPC_of_jalr (r := r) hjalr hd
  rw [hb, hi] at hnext
  have htrim := trim_emitted imm hbase
  have hsum := jalrTarget_toNat base imm
  have hbaseRng : 0x80000000 ≤ base.toNat ∧ base.toNat < 0x80020000 := hbase
  have htargetRng : 0x80000000 ≤ (jalrTarget base imm).toNat ∧
      (jalrTarget base imm).toNat < 0x80020000 := htarget
  rw [hnext, ← BitVec.toNat_inj, TrimmedPC.expand_toNat, htrim, getLsbD_eq_decide, getLsbD_eq_decide,
    decide_eq_decide]
  omega

end Jump

/-- `jalr x0, 8(x1)` in the upper half of the window. -/
theorem jalr_reaches_target_iff_upper :
    EXU.nxtPC PowerUp.exu (exuOf (decoding 0x00808067#32 0x80010000#32)) = 0x80010008#32 := by
  have hiff := jalr_reaches_target_iff (r := PowerUp.exu)
    (j := decoding 0x00808067#32 0x80010000#32)
    (i := exuOf (decoding 0x00808067#32 0x80010000#32)) (by decide) rfl (by decide) (by decide)
    (by decide)
  exact hiff.mpr (by decide)

/-- `lui x1, 0x80010; addi x1, x1, -4; jalr x0, 4(x1)`. -/
def farJump : List Word := [0x800100b7#32, 0xffc08093#32, 0x00408067#32]

/-- The jump to `0x80010000` through the base `0x8000fffc` goes to `0x80000000`: four
cycles later the first instruction of the program is executed again. -/
theorem jalr_misses_target :
    let c : JYDSoC.Config := ⟨JYDSoC.romOf farJump, 65536⟩
    let R := JYDSoC.run c
    let j := CPUCore.iduIn (R.state 6).core (JYDSoC.coreIn c (R.input 6) (R.state 6))
    let i := CPUCore.exuIn (R.state 7).core (JYDSoC.coreIn c (R.input 7) (R.state 7))
    i.dinst = IDU.outBits j ∧ IDU.isTyp (IDU.inst j) .jalr = true ∧
      IDU.addressBase j = 0x8000fffc#32 ∧ Within (IDU.addressBase j) CODE ∧
      jalrTarget (IDU.addressBase j) ((IDU.inst j).extractLsb' 20 12) = 0x80010000#32 ∧
      Within 0x80010000#32 CODE ∧ EXU.nxtPC (R.state 7).core.exu i = 0x80000000#32 ∧
      (R.state 11).core.exuPipe.valid = true ∧
      (R.state 11).core.exuPipe.bits.pc = 0x80000000#32 := by
  intro c R j i
  refine ⟨by decide +kernel, by decide +kernel, by decide +kernel, by decide +kernel,
    by decide +kernel, by decide, by decide +kernel, by decide +kernel, by decide +kernel⟩

end Soc
end Jyd
