import Jyd.Core.Addressing
import Jyd.Soc.SequentialRegs

/-!
# RamAccess — loads and stores on a data RAM of any size

The core was trimmed for 64 KB: its address adder keeps the upper bits of the base,
and the cache compares seven bits of the tag.  On a larger RAM an access that leaves
the 64 KB page of its base goes to another word, and words 256 KB apart share a line.
Where neither happens, the words in the RAM and in the cache are the bytes that the
program has stored.
-/

namespace Jyd
namespace Soc
namespace JYDSoC

open Hdl Jyd.Core JYDPeripheralBridge

/-! ## The data RAM as a byte memory -/

/-- The addresses of a data RAM of this size. -/
def InRam (sizeInByte : ℕ) (a : Word) : Prop :=
  0x80100000 ≤ a.toNat ∧ a.toNat < 0x80100000 + sizeInByte

instance (sizeInByte : ℕ) (a : Word) : Decidable (InRam sizeInByte a) :=
  inferInstanceAs (Decidable (_ ∧ _))

/-- The SoC with the RAM that `VSIM_DRAM_KB` selects. -/
def simSoC (rom : Rom) (kb : ℕ) : Config := ⟨rom, kb * 1024⟩

section Size

variable {kb : ℕ} {a b : Word}

theorem wordIndex_of_inRam (hkb : kb ≤ 1024) (h : InRam (kb * 1024) a) :
    SimpleBusMem.wordIndex (kb * 1024) a = (a.toNat - 0x80100000) / 4 := by
  have hclog : Nat.clog 2 (kb * 1024) ≤ 20 := by
    rw [Nat.clog_le_iff_le_pow (by decide)]
    omega
  have hle : kb * 1024 ≤ 2 ^ Nat.clog 2 (kb * 1024) := Nat.le_pow_clog (by decide) _
  obtain ⟨m, hm⟩ : ∃ m, 0x80100000 = 2 ^ Nat.clog 2 (kb * 1024) * m :=
    Nat.dvd_trans (Nat.pow_dvd_pow 2 hclog) (by decide : 2 ^ 20 ∣ 0x80100000)
  have hsplit : a.toNat = (a.toNat - 0x80100000) + 2 ^ Nat.clog 2 (kb * 1024) * m := by
    rw [← hm]
    have hlow := h.1
    omega
  have hlt : a.toNat - 0x80100000 < 2 ^ Nat.clog 2 (kb * 1024) := by
    have hhigh := h.2
    omega
  rw [SimpleBusMem.wordIndex_eq hclog, hsplit, Nat.add_mul_mod_self_left, Nat.mod_eq_of_lt hlt,
    ← hsplit]

theorem inDram_of_inRam (hkb : kb ≤ 1024) (h : InRam (kb * 1024) a) :
    EXU.inDramRegion a = true := by
  have hbits : a.extractLsb' 20 2 = 0b01#2 := by
    apply BitVec.eq_of_toNat_eq
    simp only [BitVec.extractLsb'_toNat, Nat.shiftRight_eq_div_pow, BitVec.toNat_ofNat]
    have hlow := h.1
    have hhigh := h.2
    omega
  simp [EXU.inDramRegion, hbits]

theorem inRange_of_inRam (hkb : kb ≤ 1024) (h : InRam (kb * 1024) a) :
    SimpleBusMem.wordIndex (kb * 1024) a < kb * 1024 / 4 := by
  have hlow := h.1
  have hhigh := h.2
  rw [wordIndex_of_inRam hkb h]
  omega

/-- The words of the RAM, as cells of a byte memory. -/
def ramMap (hkb : kb ≤ 1024) : WordMap where
  region := InRam (kb * 1024)
  cell := SimpleBusMem.wordIndex (kb * 1024)
  same_word := by
    intro a b ha hab
    have hb : InRam (kb * 1024) b := by
      rcases ha with ⟨hlow, hhigh⟩
      refine ⟨?_, ?_⟩ <;> omega
    refine ⟨hb, ?_⟩
    have hlow := ha.1
    have hlow' := hb.1
    rw [wordIndex_of_inRam hkb ha, wordIndex_of_inRam hkb hb]
    omega
  same_cell := by
    intro a b ha hb hcell
    rw [wordIndex_of_inRam hkb ha, wordIndex_of_inRam hkb hb] at hcell
    have hlow := ha.1
    have hlow' := hb.1
    omega

/-- RAM addresses among which bits `17..2` determine the word. -/
def fitRegion (hkb : kb ≤ 1024) (P : BitVec 30 → Prop)
    (hP : ∀ {p q}, P p → P q → p.extractLsb' 0 16 = q.extractLsb' 0 16 →
      p.extractLsb' 16 2 = q.extractLsb' 16 2) :
    RamRegion (kb * 1024) where
  region := fun a => InRam (kb * 1024) a ∧ P (a.extractLsb' 2 30)
  inDram := fun h => inDram_of_inRam hkb h.1
  inRange := fun h => inRange_of_inRam hkb h.1
  same_cell := by
    intro a b ha hb hindex htag
    have hi := congrArg BitVec.toNat hindex
    have ht := congrArg BitVec.toNat htag
    rw [indexOf_toNat, indexOf_toNat] at hi
    rw [tagOf_toNat, tagOf_toNat] at ht
    have hlow : (a.extractLsb' 2 30).extractLsb' 0 16 = (b.extractLsb' 2 30).extractLsb' 0 16 := by
      apply BitVec.eq_of_toNat_eq
      simp only [BitVec.extractLsb'_toNat, Nat.shiftRight_eq_div_pow]
      omega
    have hblock := congrArg BitVec.toNat (hP ha.2 hb.2 hlow)
    simp only [BitVec.extractLsb'_toNat, Nat.shiftRight_eq_div_pow] at hblock
    refine ((ramMap hkb).same_word ha.1 ?_).2.symm
    rcases ha.1 with ⟨hal, hah⟩
    rcases hb.1 with ⟨hbl, hbh⟩
    omega
  same_index := by
    intro a b ha hb hcell
    have hword := (ramMap hkb).same_cell ha.1 hb.1 hcell
    apply BitVec.eq_of_toNat_eq
    rw [indexOf_toNat, indexOf_toNat, hword]

end Size

/-! ## Accesses of a run -/

theorem completes_of_request {c : Config} {i : In} {s : Regs} {expected : BitVec 15}
    (hf : FrontInv c s expected) (hv : (busReq c i s).valid = true)
    (hmem : EXU.needMemReq s.core.exuPipe.bits = true) : completes c i s = true := by
  have hvalid := valid_of_request hf hv
  rcases not_accelerator_of_needMemReq hf hvalid hmem with ⟨hn, hl, hx⟩
  have hfire : EXU.memReqFire s.core.exu (CPUCore.exuIn s.core (coreIn c i s)) = true := by
    have hv' : EXU.memReqValid s.core.exu (CPUCore.exuIn s.core (coreIn c i s)) = true := hv
    rw [EXU.memReqFire, hv']
    rfl
  have hin : (CPUCore.exuIn s.core (coreIn c i s)).valid = true := hvalid
  rw [completes, CPUCore.exuInFire, EXU.inFire, hin, EXU.inReady, hfire]
  simp [CPUCore.exuIn, EXU.isNumericDfaStep, hn, hl, hx]

section Run

variable {c : Config} (R : Run (machine c))

def codeAt (t : ℕ) : Word := (R.state t).core.exuPipe.bits.code

def func3At (t : ℕ) : BitVec 3 := EXU.func3t (R.state t).core.exuPipe.bits

/-- A load or a store completes in this cycle. -/
def accessAt (t : ℕ) : Bool :=
  completesAt R t && EXU.needMemReq (R.state t).core.exuPipe.bits

def storesAt (t : ℕ) : Bool :=
  completesAt R t && EXU.isTypStore (R.state t).core.exuPipe.bits

def loadsAt (t : ℕ) : Bool :=
  completesAt R t && EXU.isTypLoad (R.state t).core.exuPipe.bits

/-- The base register and the effective address `rs1 + imm12` of the instruction in EXU. -/
def baseAt (t : ℕ) : Word := seqRegs R t (IDU.rs1 (codeAt R t))

def addrAt (t : ℕ) : Word := baseAt R t + (IDU.addrImm12 (codeAt R t)).signExtend 32

/-- The bytes that the program has stored by cycle `t`, over the initial contents of the RAM. -/
def bytesAt : ℕ → Bytes
  | 0 => fun a => byteOf (ramWord c (R.state 0) a) (a.toNat % 4)
  | t + 1 =>
    if storesAt R t then
      (bytesAt t).store (addrAt R t) (accessBytes (func3At R t))
        (seqRegs R t (IDU.rs2 (codeAt R t)))
    else bytesAt t

/-- An aligned access of a supported width, with base and address inside the RAM. -/
def InBounds (t : ℕ) : Prop :=
  InRam c.dramSizeInByte (baseAt R t) ∧ InRam c.dramSizeInByte (addrAt R t) ∧
    (addrAt R t).toNat % accessBytes (func3At R t) = 0 ∧
    (if storesAt R t then supportedStoreWidth (func3At R t)
      else supportedLoadWidth (func3At R t)) = true

instance (t : ℕ) : Decidable (InBounds R t) :=
  inferInstanceAs (Decidable (_ ∧ _ ∧ _ ∧ _))

/-- Up to cycle `t`, the program accesses memory with such loads and stores only. -/
def PlainAccesses (t : ℕ) : Prop :=
  ∀ k ≤ t, (accessAt R k = true → InBounds R k) ∧
    (CPUCore.exuInValid (R.state k).core = true →
      EXU.isListReverse (R.state k).core.exuPipe.bits = false)

/-- Up to cycle `t`, every access is in the 64 KB page of its base register. -/
def SamePage (t : ℕ) : Prop :=
  ∀ k ≤ t, accessAt R k = true → (baseAt R k).toNat / 65536 = (addrAt R k).toNat / 65536

/-- Up to cycle `t`, two accesses that agree in address bits `17..2` are to one word. -/
def NoAlias (t : ℕ) : Prop :=
  ∀ j ≤ t, ∀ k ≤ t, accessAt R j = true → accessAt R k = true →
    (addrAt R j).extractLsb' 2 16 = (addrAt R k).extractLsb' 2 16 →
    (addrAt R j).extractLsb' 18 2 = (addrAt R k).extractLsb' 18 2

instance (t : ℕ) : Decidable (PlainAccesses R t) :=
  inferInstanceAs (Decidable (∀ k ≤ t, (accessAt R k = true → InBounds R k) ∧ (_ → _)))

instance (t : ℕ) : Decidable (SamePage R t) :=
  inferInstanceAs (Decidable (∀ k ≤ t, accessAt R k = true → _ = _))

instance (t : ℕ) : Decidable (NoAlias R t) :=
  inferInstanceAs (Decidable (∀ j ≤ t, ∀ k ≤ t, accessAt R j = true → accessAt R k = true →
    _ = _ → _ = _))

end Run

/-! ## The run on a fit RAM -/

section Fit

variable {rom : Rom} {kb : ℕ} (hkb : kb ≤ 1024) {R : Run (machine (simSoC rom kb))} {T : ℕ}

/-- The words that the program accesses up to cycle `T`. -/
def accessed (h : NoAlias R T) : RamRegion (simSoC rom kb).dramSizeInByte :=
  fitRegion hkb (fun p => ∃ k ≤ T, accessAt R k = true ∧ (addrAt R k).extractLsb' 2 30 = p) (by
    rintro p q ⟨j, hj, haccj, rfl⟩ ⟨k, hk, hacck, rfl⟩ hlow
    have hsplit : ∀ x : Word, (x.extractLsb' 2 30).extractLsb' 0 16 = x.extractLsb' 2 16 ∧
        (x.extractLsb' 2 30).extractLsb' 16 2 = x.extractLsb' 18 2 := by
      intro x
      refine ⟨?_, ?_⟩ <;> apply BitVec.eq_of_getLsbD_eq <;> intro n hn <;>
        simp only [BitVec.getLsbD_extractLsb'] <;> grind
    rw [(hsplit _).1, (hsplit _).1] at hlow
    rw [(hsplit _).2, (hsplit _).2]
    exact h j hj k hk haccj hacck hlow)

variable {d : RamRegion (simSoC rom kb).dramSizeInByte} {t : ℕ}

include hkb in
/-- The split adder forms the effective address. -/
theorem reg1AddImm_eq_addrAt (hdisc : DisciplinedBefore d R t) (hacc : accessAt R t = true)
    (hin : InBounds R t) (hpage : (baseAt R t).toNat / 65536 = (addrAt R t).toNat / 65536) :
    EXU.reg1AddImm (R.state t).core.exuPipe.bits = addrAt R t := by
  simp only [accessAt, Bool.and_eq_true] at hacc
  rcases issuedOk hdisc (CPUCore.exuInValid_of_inFire hacc.1) with ⟨j, hj⟩
  have hneed : IDU.needReg1AddImm (R.state t).core.exuPipe.bits.code = true := by
    have hmeta := (decoded_of_completes (frontInv R t) hacc.1).metaInfo_eq
    have hmem := hacc.2
    simp only [EXU.needMemReq, EXU.isTypLoad, EXU.isTypStore, Bool.or_eq_true, beq_iff_eq] at hmem
    rw [hmeta] at hmem
    rcases hmem with h | h <;> simp [IDU.needReg1AddImm, IDU.isTyp, h]
  rw [(CPUCore.heldOperands hj).address hneed]
  have hsize : (simSoC rom kb).dramSizeInByte = kb * 1024 := rfl
  rcases hin with ⟨hbase, haddr, -, -⟩
  rw [InRam, hsize] at hbase haddr
  exact (IDU.addAddrImm_eq_iff ⟨hbase.1, by omega⟩
    (show (addrAt R t).toNat < _ by omega)).mpr hpage

/-- A store request belongs to a store that completes. -/
theorem storesAt_of_write (hl : CPUCore.exuInValid (R.state t).core = true →
      EXU.isListReverse (R.state t).core.exuPipe.bits = false)
    (hv : (busReq (simSoC rom kb) (R.input t) (R.state t)).valid = true)
    (hw : (busReq (simSoC rom kb) (R.input t) (R.state t)).req.wen = true) :
    storesAt R t = true := by
  have hvalid := valid_of_request (frontInv R t) hv
  cases writeKind (frontInv R t) hv hw with
  | listReverse kind => exact absurd (kind.symm.trans (hl hvalid)) (by decide)
  | store typ =>
    have hmem : EXU.needMemReq (R.state t).core.exuPipe.bits = true := by
      simp [EXU.needMemReq, typ]
    have hc : completesAt R t = true := completes_of_request (frontInv R t) hv hmem
    simp [storesAt, hc, typ]

theorem accessAt_of_storesAt (h : storesAt R t = true) : accessAt R t = true := by
  simp only [storesAt, Bool.and_eq_true] at h
  simp [accessAt, h.1, EXU.needMemReq, h.2]

theorem accessAt_of_loadsAt (h : loadsAt R t = true) : accessAt R t = true := by
  simp only [loadsAt, Bool.and_eq_true] at h
  simp [accessAt, h.1, EXU.needMemReq, h.2]

/-- Every access up to `T` is addressed to a word that the cache tells apart. -/
theorem disciplined_of_fit (hplain : PlainAccesses R T) (hpage : SamePage R T)
    (halias : NoAlias R T) (ht : t ≤ T) (hdisc : DisciplinedBefore (accessed hkb halias) R t) :
    Disciplined (accessed hkb halias) (R.input t) (R.state t) := by
  have hregion : accessAt R t = true →
      (accessed hkb halias).region
        (busReq (simSoC rom kb) (R.input t) (R.state t)).req.addr := by
    intro hacc
    have haddr := reg1AddImm_eq_addrAt hkb hdisc hacc ((hplain t ht).1 hacc) (hpage t ht hacc)
    have hparts := hacc
    simp only [accessAt, Bool.and_eq_true] at hparts
    have hreq := request_of_needMemReq (i := R.input t) (frontInv R t)
      (CPUCore.exuInValid_of_inFire hparts.1) hparts.2
    rw [hreq.1, haddr]
    exact ⟨((hplain t ht).1 hacc).2.1, t, ht, hacc, rfl⟩
  refine ⟨?_, ?_⟩
  · intro hv hw _
    exact hregion (accessAt_of_storesAt (storesAt_of_write (hplain t ht).2 hv hw))
  · intro hv hload
    have hmem : EXU.needMemReq (R.state t).core.exuPipe.bits = true := by
      simp only [EXU.cacheableLoad, Bool.and_eq_true] at hload
      simp [EXU.needMemReq, hload.1.1.1]
    have hc : completesAt R t = true := completes_of_request (frontInv R t) hv hmem
    exact hregion (by simp [accessAt, hc, hmem])

theorem disciplinedBefore_of_fit (hplain : PlainAccesses R T) (hpage : SamePage R T)
    (halias : NoAlias R T) (ht : t ≤ T + 1) : DisciplinedBefore (accessed hkb halias) R t := by
  induction t with
  | zero => exact fun k hk => absurd hk (Nat.not_lt_zero k)
  | succ t ih =>
    have hbefore := ih (by omega)
    intro k hk
    rcases Nat.lt_succ_iff_lt_or_eq.mp hk with hlt | rfl
    · exact hbefore k hlt
    · exact disciplined_of_fit hkb hplain hpage halias (by omega) hbefore

/-- The request of a store: its effective address, and its data and enables aligned to it. -/
theorem request_of_storesAt (hdisc : DisciplinedBefore d R t) (hs : storesAt R t = true)
    (hl : CPUCore.exuInValid (R.state t).core = true →
      EXU.isListReverse (R.state t).core.exuPipe.bits = false)
    (haddr : EXU.reg1AddImm (R.state t).core.exuPipe.bits = addrAt R t) :
    ∃ size, requestAt R t = ⟨true, ⟨addrAt R t, size, true,
      GenMemWData ((addrAt R t).extractLsb' 0 2) (seqRegs R t (IDU.rs2 (codeAt R t))),
      GenMemWMask ((addrAt R t).extractLsb' 0 2) (func3At R t)⟩⟩ := by
  simp only [storesAt, Bool.and_eq_true] at hs
  have hfire : CPUCore.exuInFire (R.state t).core (coreIn _ (R.input t) (R.state t)) = true := hs.1
  have hvalid := CPUCore.exuInValid_of_inFire hfire
  have hmem : EXU.needMemReq (R.state t).core.exuPipe.bits = true := by simp [EXU.needMemReq, hs.2]
  have hreq := request_of_needMemReq (i := R.input t) (frontInv R t) hvalid hmem
  have hv : (requestAt R t).valid = true := request_of_completes hfire hmem
  have hw : (requestAt R t).req.wen = true := hreq.2.trans hs.2
  -- the store data is an operand like any other, forwarded or read
  rcases issuedOk hdisc hvalid with ⟨j, hj⟩
  have hdelivered := CPUCore.delivered_of_issued (drained R t) (regsOk hdisc) hj
  have hdata := (CPUCore.usedOperands hdelivered (frontInv R t).exu hfire).store hs.2
  -- the request on the bus is EXU's own or one of the list controller
  cases writeKind (frontInv R t) hv hw with
  | listReverse kind => exact absurd (kind.symm.trans (hl hvalid)) (by decide)
  | store typ valid addr data mask =>
    refine ⟨(requestAt R t).req.size, ?_⟩
    have haddr' : (requestAt R t).req.addr = addrAt R t := hreq.1.trans haddr
    have hdata' : (requestAt R t).req.wdata = _ := data
    have hmask' : (requestAt R t).req.wmask = _ := mask
    rw [EXU.memWData, hdata] at hdata'
    rw [EXU.memWMask, haddr] at hmask'
    rw [show (CPUCore.exuIn (R.state t).core (coreIn (simSoC rom kb) (R.input t)
      (R.state t))).dinst = (R.state t).core.exuPipe.bits from rfl, haddr] at hdata'
    calc requestAt R t
        = ⟨(requestAt R t).valid, ⟨(requestAt R t).req.addr, (requestAt R t).req.size,
            (requestAt R t).req.wen, (requestAt R t).req.wdata,
            (requestAt R t).req.wmask⟩⟩ := rfl
      _ = _ := by rw [hv, haddr', hw, hdata', hmask']; rfl

/-- The RAM holds the bytes that the program has stored. -/
theorem represents_of_fit (hplain : PlainAccesses R T) (hpage : SamePage R T)
    (halias : NoAlias R T) (ht : t ≤ T + 1) :
    (ramMap hkb).Represents (R.state t).bus.dram.mem (bytesAt R t) := by
  induction t with
  | zero => exact fun a _ => rfl
  | succ t ih =>
    have hrep := ih (by omega)
    have hdisc := disciplinedBefore_of_fit hkb hplain hpage halias (t := t) (by omega)
    have hmem : (R.state (t + 1)).bus.dram.mem =
        if (requestAt R t).valid && targetSel (requestAt R t).req.addr == .dram &&
            (requestAt R t).req.wen then
          SimpleBusMem.write (kb * 1024) (R.state t).bus.dram.mem (requestAt R t).req
        else (R.state t).bus.dram.mem := by
      rw [R.step t]
      rfl
    cases hs : storesAt R t with
    | false =>
      -- nothing but a store writes the RAM
      have hno : ((requestAt R t).valid && targetSel (requestAt R t).req.addr == .dram &&
          (requestAt R t).req.wen) = false := by
        refine Bool.eq_false_iff.mpr fun h => ?_
        simp only [Bool.and_eq_true] at h
        exact absurd (hs.symm.trans (storesAt_of_write (hplain t (by omega)).2 h.1.1 h.2))
          (by decide)
      rw [hmem, hno, bytesAt, hs]
      exact hrep
    | true =>
      have hacc := accessAt_of_storesAt hs
      have hin := (hplain t (by omega)).1 hacc
      have haddr := reg1AddImm_eq_addrAt hkb hdisc hacc hin (hpage t (by omega) hacc)
      obtain ⟨size, hreq⟩ := request_of_storesAt hdisc hs (hplain t (by omega)).2 haddr
      have hram : InRam (kb * 1024) (addrAt R t) := hin.2.1
      have haligned := hin.2.2.1
      have hwidth := hin.2.2.2
      rw [hs] at hwidth
      rw [hmem, hreq, targetSel_of_inDram (inDram_of_inRam hkb hram), SimpleBusMem.write_eq,
        if_pos (inRange_of_inRam hkb hram), bytesAt, hs]
      have hoff := offset_toNat (addrAt R t)
      have haligned' : ((addrAt R t).extractLsb' 0 2).toNat % accessBytes (func3At R t) = 0 := by
        rw [hoff]
        exact mod_four_aligned haligned
      refine WordMap.Represents.store (g := ramMap hkb) hrep hram ?_ ?_ ?_
      · rw [← hoff]
        exact access_in_word _ _ haligned'
      · rw [← hoff]
        exact GenMemWMask_getLsbD _ _ hwidth haligned'
      · rw [← hoff]
        exact fun k hk => byteOf_GenMemWData _ haligned' hk

include hkb in
theorem resultValue_of_load (hplain : PlainAccesses R t) (hpage : SamePage R t)
    (halias : NoAlias R t) (hload : loadsAt R t = true) :
    resultValue (simSoC rom kb) (R.input t) (R.state t) =
      loadValue (bytesAt R t) (addrAt R t) (func3At R t) := by
  have hacc := accessAt_of_loadsAt hload
  have hdisc := disciplinedBefore_of_fit hkb hplain hpage halias (Nat.le_succ t)
  have hrep := represents_of_fit hkb hplain hpage halias (Nat.le_succ t)
  have hin := (hplain t le_rfl).1 hacc
  have haddr := reg1AddImm_eq_addrAt hkb hdisc hacc hin (hpage t le_rfl hacc)
  have hram : InRam (kb * 1024) (addrAt R t) := hin.2.1
  simp only [loadsAt, Bool.and_eq_true] at hload
  have hnostore : storesAt R t = false := by
    have htyp : (R.state t).core.exuPipe.bits.info.typ = .load := by
      simpa [EXU.isTypLoad] using hload.2
    simp [storesAt, EXU.isTypStore, htyp]
  have hwidth : supportedLoadWidth (func3At R t) = true := by
    simpa [hnostore] using hin.2.2.2
  have hanswer : ∀ ch, DataBus.answer (kb * 1024) (R.state t).bus (addrAt R t) ch =
      (R.state t).bus.dram.mem ((ramMap hkb).cell (addrAt R t)) := by
    intro ch
    rw [DataBus.answer, targetSel_of_inDram (inDram_of_inRam hkb hram)]
    simp [SimpleBusMem.read_eq, if_pos (inRange_of_inRam hkb hram), ramMap]
  rw [resultValue, haddr]
  simp only [hload.2, if_true]
  rw [show (simSoC rom kb).dramSizeInByte = kb * 1024 from rfl, hanswer]
  exact ExtLoadData_eq hwidth hin.2.2.1 fun k hk => hrep.byteOf_add hram hk

theorem completesInto_of_load (hload : loadsAt R t = true) (hrd : IDU.rd (codeAt R t) ≠ 0#5) :
    CPUCore.completesInto (R.state t).core (coreIn (simSoC rom kb) (R.input t) (R.state t))
      (IDU.rd (codeAt R t)) = true := by
  simp only [loadsAt, Bool.and_eq_true] at hload
  have hfire : CPUCore.exuInFire (R.state t).core
      (coreIn (simSoC rom kb) (R.input t) (R.state t)) = true := hload.1
  rcases decoded_of_completes (frontInv R t) hload.1 with ⟨j, hj⟩
  have htyp : (IDU.metaInfo (IDU.inst j)).typ = .load := by
    have h := hload.2
    rw [hj] at h
    simpa [EXU.isTypLoad, IDU.outBits, IDU.info] using h
  rw [codeAt, hj] at hrd ⊢
  rw [CPUCore.completesInto, hfire, hj]
  have hrd' : IDU.rd (IDU.inst j) ≠ 0#5 := hrd
  have hwr : (IDU.outBits j).info.rdWrEn = true := by
    simp [IDU.outBits, IDU.info, IDU.rdWrEn, IDU.isTyp, htyp]
  have hreg : (IDU.outBits j).info.rd = IDU.rd (IDU.inst j) := rfl
  have hcode : (IDU.outBits j).code = IDU.inst j := rfl
  simp [hwr, hreg, hcode, hrd']

end Fit

/-! ## The contract -/

/-- On a RAM of up to 1 MB, a load returns the bytes last stored at its effective address, to
the register file and to the bypass, in every run whose accesses stay on the 64 KB page of
their base and do not meet in a cache line that cannot tell them apart. -/
theorem load_returns_stored_bytes (rom : Rom) (kb : ℕ) (hkb : kb ≤ 1024)
    (R : Run (machine (simSoC rom kb))) (t : ℕ) (hplain : PlainAccesses R t)
    (hpage : SamePage R t) (halias : NoAlias R t) (hload : loadsAt R t = true) :
    (IDU.rd (codeAt R t) ≠ 0#5 →
        seqRegs R (t + 1) (IDU.rd (codeAt R t)) =
          loadValue (bytesAt R t) (addrAt R t) (func3At R t)) ∧
      ((ExtractFwdInfoFromLSU (R.state (t + 1)).core.lsuPipe).dataVaild = true →
        (ExtractFwdInfoFromLSU (R.state (t + 1)).core.lsuPipe).data =
          loadValue (bytesAt R t) (addrAt R t) (func3At R t)) := by
  have hvalue := resultValue_of_load hkb hplain hpage halias hload
  have hfire : completes (simSoC rom kb) (R.input t) (R.state t) = true := by
    simp only [loadsAt, Bool.and_eq_true] at hload
    exact hload.1
  refine ⟨?_, ?_⟩
  · intro hrd
    rw [seqRegs, writeBack, completesInto_of_load hload hrd, if_pos rfl, hvalue]
  · intro hvalid
    have hdisc := disciplinedBefore_of_fit hkb hplain hpage halias (t := t + 1) le_rfl
    have hlsu : (R.state (t + 1)).core.lsuPipe.valid = true := by
      rw [lsuPipe_at]
      exact hfire
    rw [← lsuValue_forwarded hdisc hlsu hvalid, R.step t]
    exact (lsuValue_next (frontInv R t) hfire).trans hvalue


/-- `lui x1, 0x80110; sw x1, 4(x1); lb x3, 7(x1)`. -/
def byteOfStore : List Word := [0x801100b7#32, 0x0010a223#32, 0x00708183#32]

theorem load_returns_stored_bytes_byteOfStore :
    let R := run (simSoC (romOf byteOfStore) 128)
    PlainAccesses R 6 ∧ SamePage R 6 ∧ NoAlias R 6 ∧ loadsAt R 6 = true ∧
      addrAt R 6 = 0x80110007#32 ∧ storesAt R 5 = true ∧ addrAt R 5 = 0x80110004#32 ∧
      seqRegs R 7 (IDU.rd (codeAt R 6)) = loadValue (bytesAt R 6) (addrAt R 6) (func3At R 6) := by
  intro R
  have hplain : PlainAccesses R 6 := by decide +kernel
  have hpage : SamePage R 6 := by decide +kernel
  have halias : NoAlias R 6 := by decide +kernel
  have hload : loadsAt R 6 = true := by decide +kernel
  refine ⟨hplain, hpage, halias, hload, by decide +kernel, by decide +kernel, by decide +kernel, ?_⟩
  exact (load_returns_stored_bytes _ 128 (by decide) R 6 hplain hpage halias hload).1
    (by decide +kernel)

/-- `lui x1, 0x80110; addi x2, x1, -4; sw x1, 4(x2); nop; lw x3, 0(x1)`. -/
def pageCrossing : List Word :=
  [0x801100b7#32, 0xffc08113#32, 0x00112223#32, 0x00000013#32, 0x0000a183#32]

/-- In a RAM of 128 KB the store to `0x80110000` through the base `0x8010fffc` goes to
`0x80100000`, and a load of the same address returns the initial `0`. -/
theorem store_lost_across_page :
    let R := run (simSoC (romOf pageCrossing) 128)
    PlainAccesses R 9 ∧ NoAlias R 9 ∧ storesAt R 7 = true ∧ baseAt R 7 = 0x8010fffc#32 ∧
      addrAt R 7 = 0x80110000#32 ∧ (requestAt R 7).req.addr = 0x80100000#32 ∧
      loadsAt R 9 = true ∧ addrAt R 9 = 0x80110000#32 ∧
      loadValue (bytesAt R 9) (addrAt R 9) (func3At R 9) = 0x80110000#32 ∧
      seqRegs R 10 (IDU.rd (codeAt R 9)) = 0#32 := by
  intro R
  refine ⟨by decide +kernel, by decide +kernel, by decide +kernel, by decide +kernel,
    by decide +kernel, by decide +kernel, by decide +kernel, by decide +kernel, by decide +kernel,
    by decide +kernel⟩

end JYDSoC
end Soc
end Jyd
