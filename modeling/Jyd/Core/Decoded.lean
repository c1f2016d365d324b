import Jyd.Core.Idu
import Jyd.Core.Exu

/-!
# Decoded — what EXU may assume about its payload

The payload register between IDU and EXU only ever holds images of `IDU.outBits`.
The classes of such a payload exclude each other, and its flags agree with its
instruction word.
-/

namespace Jyd
namespace Core

open Hdl

/-- The payload was produced by IDU. -/
def Decoded (d : DecodedInst) : Prop := ∃ j : IDU.In, d = IDU.outBits j

namespace IDU

variable (code : Word)

/-! ## The opcode table -/

theorem metaInfo_eq :
    metaInfo code = ⟨.imm, .load⟩ ∨ metaInfo code = ⟨.imm, .arithmetic⟩ ∨
      metaInfo code = ⟨.reg, .arithmetic⟩ ∨ metaInfo code = ⟨.imm, .jalr⟩ ∨
      metaInfo code = ⟨.imm, .system⟩ ∨ metaInfo code = ⟨.store, .store⟩ ∨
      metaInfo code = ⟨.upper, .lui⟩ ∨ metaInfo code = ⟨.upper, .auipc⟩ ∨
      metaInfo code = ⟨.jump, .jal⟩ ∨ metaInfo code = ⟨.branch, .branch⟩ := by
  unfold metaInfo InstInfoDecoder
  rcases dontcare_eq with hdont | hdont <;> split <;> simp [hdont]

theorem fmt_branch_iff : (metaInfo code).fmt = .branch ↔ (metaInfo code).typ = .branch := by
  rcases metaInfo_eq code with h | h | h | h | h | h | h | h | h | h <;> simp [h]

/-- The class of an instruction is a function of its opcode. -/
theorem metaInfo_of_opcode {op : BitVec 7} (h : opcode code = op) :
    metaInfo code = (InstInfoDecoder op).getD dontcare := by
  have h' : code.extractLsb' 0 7 = op := h
  rw [metaInfo, h']

theorem metaInfo_custom0 (h : opcode code = 0b0001011#7) : metaInfo code = ⟨.reg, .arithmetic⟩ := by
  rw [metaInfo_of_opcode code h]
  rfl

theorem metaInfo_custom2 (h : opcode code = 0b1011011#7) : metaInfo code = ⟨.reg, .arithmetic⟩ := by
  rw [metaInfo_of_opcode code h]
  rfl

theorem metaInfo_ecall (h : isECall code = true) : metaInfo code = ⟨.imm, .system⟩ := by
  have hcode : code = 0x73#32 := by simpa [isECall] using h
  rw [hcode]
  rfl

theorem metaInfo_mret (h : isMRet code = true) : metaInfo code = ⟨.imm, .system⟩ := by
  have hcode : code = 0x30200073#32 := by simpa [isMRet] using h
  rw [hcode]
  rfl

theorem metaInfo_return (h : isPredictableReturn code = true) :
    metaInfo code = ⟨.imm, .jalr⟩ := by
  have hcode : code = 0x00008067#32 := by simpa [isPredictableReturn] using h
  rw [hcode]
  rfl

/-! ## Accelerator encodings -/

theorem opcode_of_listReverse (h : isListReverseCustom code = true) :
    opcode code = 0b0001011#7 ∧ func3 code = 6#3 := by
  simp only [isListReverseCustom, isListReverseEncoding, Bool.and_eq_true, beq_iff_eq] at h
  exact ⟨h.1.1, h.1.2⟩

theorem opcode_of_xmsum (h : isMatrixReduceCustom code = true) :
    opcode code = 0b0001011#7 ∧ func3 code = 7#3 := by
  simp only [isMatrixReduceCustom, isCustom0, Bool.and_eq_true, beq_iff_eq] at h
  exact ⟨h.2, h.1.2⟩

theorem opcode_of_numericDfa (h : isNumericDfaCustom code = true) :
    opcode code = 0b1011011#7 := by
  simp only [isNumericDfaCustom, Bool.and_eq_true, beq_iff_eq] at h
  exact h.1

theorem listReverseLoop_listReverse (h : isListReverseLoopEncoding code = true) :
    isListReverseCustom code = true := by
  simp only [isListReverseLoopEncoding, Bool.and_eq_true, beq_iff_eq] at h
  simp [isListReverseCustom, isListReverseEncoding, h]

/-! ## Late-load and fast tokens -/

theorem not_allowLate_of_typ {code : Word} (h₁ : (metaInfo code).typ ≠ .arithmetic)
    (h₂ : (metaInfo code).typ ≠ .branch) :
    allowLateLoadRs1 code = false ∧ isEqualityBranch code = false := by
  simp [allowLateLoadRs1, isLateLoadAndi1, isLateLoadSrli1, isEqualityBranch, isTyp, h₁, h₂]

theorem not_loop_of_typ {code : Word} (h : (metaInfo code).typ ≠ .arithmetic) :
    isListReverseLoopEncoding code = false := by
  refine Bool.eq_false_iff.mpr fun hl => h ?_
  simp only [isListReverseLoopEncoding, Bool.and_eq_true, beq_iff_eq] at hl
  rw [metaInfo_custom0 _ hl.2]

/-- `beq` and `bne` are the only equality branches. -/
theorem func3_of_equalityBranch {code : Word} (h : isEqualityBranch code = true) :
    func3 code = 0#3 ∨ func3 code = 1#3 := by
  simp only [isEqualityBranch, Bool.and_eq_true, beq_iff_eq] at h
  have k := congrArg BitVec.toNat h.2
  simp only [BitVec.extractLsb'_toNat, Nat.shiftRight_eq_div_pow, BitVec.toNat_ofNat] at k
  rw [← BitVec.toNat_inj, ← BitVec.toNat_inj]
  simp only [func3, BitVec.extractLsb'_toNat, Nat.shiftRight_eq_div_pow, BitVec.toNat_ofNat]
  omega

end IDU

namespace Decoded

variable {d : DecodedInst}

/-! ## Fields of a decoded payload -/

theorem metaInfo_eq (hd : Decoded d) : d.info.toInstMetaInfo = IDU.metaInfo d.code := by
  rcases hd with ⟨j, rfl⟩
  rfl

theorem pcAddImm_eq (hd : Decoded d) : d.info.pcAddImm = d.pc + IDU.imm d.code := by
  rcases hd with ⟨j, rfl⟩
  rfl

theorem trap_eq (hd : Decoded d) :
    d.info.isECall = IDU.isECall d.code ∧ d.info.isMRet = IDU.isMRet d.code := by
  rcases hd with ⟨j, rfl⟩
  exact ⟨rfl, rfl⟩

theorem listReverseLoop_eq (hd : Decoded d) :
    EXU.isListReverseLoop d = IDU.isListReverseLoopEncoding d.code := by
  rcases hd with ⟨j, rfl⟩
  have hdef : EXU.isListReverseLoop (IDU.outBits j) =
      (IDU.isListReverseCustom (IDU.inst j) && IDU.isListReverseLoopEncoding (IDU.inst j)) := rfl
  cases h : IDU.isListReverseLoopEncoding (IDU.inst j) with
  | false => rw [hdef, h, Bool.and_false, ← h]; rfl
  | true => rw [hdef, IDU.listReverseLoop_listReverse _ h, h, Bool.and_true, ← h]; rfl

end Decoded

namespace EXU

variable {d : DecodedInst}

/-! ## Exclusive classes -/

theorem not_arithmetic_of_branch (h : isTypBranch d = true) : isTypArithmetic d = false := by
  have ht : d.info.typ = .branch := by simpa [isTypBranch] using h
  simp [isTypArithmetic, ht]

theorem isTypArithmetic_of_meta {j : IDU.In}
    (h : IDU.metaInfo (IDU.inst j) = ⟨.reg, .arithmetic⟩) :
    isTypArithmetic (IDU.outBits j) = true := by
  simp [isTypArithmetic, IDU.outBits, IDU.info, h]

theorem isTypArithmetic_of_listReverse (hd : Decoded d) (h : isListReverse d = true) :
    isTypArithmetic d = true := by
  rcases hd with ⟨j, rfl⟩
  have hop := (IDU.opcode_of_listReverse _ h).1
  exact isTypArithmetic_of_meta (IDU.metaInfo_custom0 _ hop)

theorem isTypArithmetic_of_xmsum (hd : Decoded d) (h : isXmsum d = true) :
    isTypArithmetic d = true := by
  rcases hd with ⟨j, rfl⟩
  have hop := (IDU.opcode_of_xmsum _ h).1
  exact isTypArithmetic_of_meta (IDU.metaInfo_custom0 _ hop)

theorem isTypArithmetic_of_numericDfa (hd : Decoded d) (h : isNumericDfa d = true) :
    isTypArithmetic d = true := by
  rcases hd with ⟨j, rfl⟩
  have hop := IDU.opcode_of_numericDfa _ h
  exact isTypArithmetic_of_meta (IDU.metaInfo_custom2 _ hop)

/-- Two kinds that need different values in one field exclude each other. -/
theorem eq_false_of_field {n : ℕ} {field x y : BitVec n} {kind : Bool} (hx : field = x)
    (hy : kind = true → field = y) (hne : x ≠ y) : kind = false := by
  refine Bool.eq_false_iff.mpr ?_
  intro hkind
  exact hne (hx.symm.trans (hy hkind))

theorem not_xmsum_of_listReverse (hd : Decoded d) (h : isListReverse d = true) :
    isXmsum d = false := by
  rcases hd with ⟨j, rfl⟩
  exact eq_false_of_field (IDU.opcode_of_listReverse _ h).2
    (fun hx => (IDU.opcode_of_xmsum _ hx).2) (by decide)

theorem not_numericDfa_of_listReverse (hd : Decoded d) (h : isListReverse d = true) :
    isNumericDfa d = false := by
  rcases hd with ⟨j, rfl⟩
  exact eq_false_of_field (IDU.opcode_of_listReverse _ h).1
    (fun hx => IDU.opcode_of_numericDfa _ hx) (by decide)

theorem not_numericDfa_of_xmsum (hd : Decoded d) (h : isXmsum d = true) :
    isNumericDfa d = false := by
  rcases hd with ⟨j, rfl⟩
  exact eq_false_of_field (IDU.opcode_of_xmsum _ h).1
    (fun hx => IDU.opcode_of_numericDfa _ hx) (by decide)

/-- The accelerators all decode as arithmetic. -/
theorem not_accelerator (hd : Decoded d) (h : isTypArithmetic d = false) :
    isNumericDfa d = false ∧ isListReverse d = false ∧ isXmsum d = false := by
  refine ⟨?_, ?_, ?_⟩ <;> refine Bool.eq_false_iff.mpr fun hk => Bool.false_ne_true (h ▸ ?_)
  · exact isTypArithmetic_of_numericDfa hd hk
  · exact isTypArithmetic_of_listReverse hd hk
  · exact isTypArithmetic_of_xmsum hd hk

theorem listReverse_of_loop (hd : Decoded d) (h : isListReverseLoop d = true) :
    isListReverse d = true := by
  rcases hd with ⟨j, rfl⟩
  have h' : (IDU.isListReverseCustom j.bits.code && IDU.isListReverseLoopEncoding j.bits.code) = true := h
  exact (Bool.and_eq_true _ _ ▸ h').1

theorem not_listReverseLoop (hd : Decoded d) (h : isTypArithmetic d = false) :
    isListReverseLoop d = false :=
  Bool.eq_false_iff.mpr fun hk =>
    Bool.false_ne_true ((not_accelerator hd h).2.1 ▸ listReverse_of_loop hd hk)

/-! ## Withdrawn predictions -/

/-- Only jumps and traps withdraw their prediction in IDU. -/
theorem not_notBranchPredWrong (hd : Decoded d) (hjal : isTypJAL d = false)
    (hjalr : isTypJALR d = false) (hsys : isTypSys d = false) :
    d.info.notBranchPredWrong = false := by
  rcases hd with ⟨j, rfl⟩
  have hj : IDU.isTyp (IDU.inst j) .jal = false := hjal
  have hjr : IDU.isTyp (IDU.inst j) .jalr = false := hjalr
  have hs : (IDU.metaInfo (IDU.inst j)).typ ≠ .system := by
    simpa [isTypSys, IDU.outBits, IDU.info] using hsys
  have hecall : IDU.isECall (IDU.inst j) = false :=
    Bool.eq_false_iff.mpr fun hk => hs (by simp [IDU.metaInfo_ecall _ hk])
  have hmret : IDU.isMRet (IDU.inst j) = false :=
    Bool.eq_false_iff.mpr fun hk => hs (by simp [IDU.metaInfo_mret _ hk])
  have hret : IDU.isPredictableReturn (IDU.inst j) = false :=
    Bool.eq_false_iff.mpr fun hk => by simp [IDU.isTyp, IDU.metaInfo_return _ hk] at hjr
  simp [IDU.outBits, IDU.info, IDU.notBranchPredWrong, IDU.returnTargetPredWrong, hj, hjr, hecall,
    hmret, hret]

/-- Traps and trap returns always withdraw their prediction. -/
theorem not_trap_of_predicted (hd : Decoded d) (h : d.info.notBranchPredWrong = false) :
    d.info.isECall = false ∧ d.info.isMRet = false := by
  rcases hd with ⟨j, rfl⟩
  have h' : IDU.notBranchPredWrong j = false := h
  simp only [IDU.notBranchPredWrong, Bool.or_eq_false_iff] at h'
  exact ⟨h'.1.1.1.1, h'.1.1.1.2⟩

/-- A branch token is only given to a branch. -/
theorem isTypBranch_of_adjacentFastBranch (hd : Decoded d)
    (h : d.info.adjacentFastBranch = true) : isTypBranch d = true := by
  rcases hd with ⟨j, rfl⟩
  have htok : (IDU.fastBranchRs1Token j || IDU.fastBranchRs2Token j) = true := h
  have htyp : IDU.isTyp (IDU.inst j) .branch = true := by
    simp only [IDU.fastBranchRs1Token, IDU.fastBranchRs2Token, Bool.or_eq_true,
      Bool.and_eq_true] at htok
    rcases htok with ht | ht <;> exact ht.2
  exact htyp

theorem isFmtB_eq (hd : Decoded d) : isFmtB d = isTypBranch d := by
  rcases hd with ⟨j, rfl⟩
  have h := IDU.fmt_branch_iff j.bits.code
  simp only [isFmtB, isTypBranch, IDU.outBits, IDU.info, IDU.inst]
  rw [Bool.eq_iff_iff]
  simpa using h

/-- Only arithmetic instructions and branches wait for a late load. -/
theorem not_hasLate (hd : Decoded d) (h₁ : isTypArithmetic d = false) (h₂ : isTypBranch d = false) :
    hasLateLoadOperand d = false := by
  rcases hd with ⟨j, rfl⟩
  have ht₁ : (IDU.metaInfo j.bits.code).typ ≠ .arithmetic := by
    simpa [isTypArithmetic, IDU.outBits, IDU.info, IDU.inst] using h₁
  have ht₂ : (IDU.metaInfo j.bits.code).typ ≠ .branch := by
    simpa [isTypBranch, IDU.outBits, IDU.info, IDU.inst] using h₂
  have hallow := IDU.not_allowLate_of_typ ht₁ ht₂
  simp [hasLateLoadOperand, IDU.outBits, IDU.info, IDU.byPass1, IDU.byPass2,
    IDU.CacheAwareByPassMux, IDU.inst, hallow.1, hallow.2]

end EXU

end Core
end Jyd
