import Jyd.Core.Issue
import Jyd.Core.BitManipulation

/-!
# ArithmeticDecode — one instruction word, four decoders

IDU chooses the execution unit, EXU and the special cluster select the result, and the
units look at the function fields once more.  For every OP and OP-IMM instruction they
agree with its encoding, and the two units that answer in the same cycle compute its
result.
-/

namespace Jyd
namespace Core

open Hdl Isa

/-- The places an arithmetic instruction can be executed in. -/
inductive ExecUnit
  | fastInteger
  | specialCluster
  | bExtension
  | multiplier
  | divider
  deriving DecidableEq, Repr

/-- Where each instruction is meant to be executed. -/
def unitOf : ArithOp → ExecUnit
  | .int _ | .intImm _ | .bit .pack => .fastInteger
  | .mul _ => .multiplier
  | .div _ => .divider
  | .bit .clz | .bit .ctz | .bit .cpop | .bit .clmul | .bit .clmulh | .bit .orcB
  | .bit .xperm4 | .bit .ror | .bit .rori => .bExtension
  | .bit _ => .specialCluster

namespace IDU

variable {code : Word}

/-! ## The fields of an encoded instruction -/

structure Fields (code : Word) (e : Encoding) : Prop where
  typ : isTyp code .arithmetic = true
  fmt : isFmtI code = e.immediate
  opcode : opcode code = e.opcode
  func3 : func3 code = e.func3
  func7 : ∀ f ∈ e.func7, func7 code = f
  low5 : ∀ s ∈ e.rs2, bImmLow5 code = s

/-- The function fields of an encoding, whatever the opcode is. -/
structure Carries (code : Word) (e : Encoding) : Prop where
  fmt : isFmtI code = e.immediate
  func3 : IDU.func3 code = e.func3
  func7 : ∀ f ∈ e.func7, IDU.func7 code = f
  low5 : ∀ s ∈ e.rs2, bImmLow5 code = s

theorem Fields.carries {e : Encoding} (h : Fields code e) : Carries code e :=
  ⟨h.fmt, h.func3, h.func7, h.low5⟩

theorem fields_of_matches {e : Encoding} (h : e.Matches code) : Fields code e := by
  have hmeta : metaInfo code = ⟨if e.immediate then .imm else .reg, .arithmetic⟩ := by
    rw [metaInfo_of_opcode code h.opcode, Encoding.opcode]
    cases e.immediate <;> rfl
  refine ⟨?_, ?_, h.opcode, h.func3, h.func7, h.rs2⟩
  · simp [isTyp, hmeta]
  · rw [isFmtI, isFmt, hmeta]
    cases e.immediate <;> rfl

/-- No OP or OP-IMM instruction is taken for an accelerator. -/
theorem Fields.not_accelerator {e : Encoding} (h : Fields code e) : isAccelerator code = false := by
  have hop : IDU.opcode code = 0b0010011#7 ∨ IDU.opcode code = 0b0110011#7 := by
    rw [h.opcode, Encoding.opcode]
    cases e.immediate <;> simp
  rcases hop with ho | ho <;>
    simp [isAccelerator, isCrcU8Custom, isBitExtractMulCustom, isListReverseCustom,
      isListReverseEncoding, isMatrixReduceCustom, isNumericDfaCustom, isCustom0, ho]

theorem immI_eq (code : Word) : immI code = (code.extractLsb' 20 12).signExtend 32 := by
  have hmsb : (code.extractLsb' 20 12).msb = code.getLsbD 31 := by
    rw [BitVec.msb_eq_getLsbD_last, BitVec.getLsbD_extractLsb']
    rfl
  have hfill : ∀ n, n < 21 → (fill 21 (code.getLsbD 31)).getLsbD n = code.getLsbD 31 := by
    intro n hn
    cases code.getLsbD 31 with
    | false => exact BitVec.getLsbD_zero
    | true =>
      show (BitVec.allOnes 21).getLsbD n = true
      rw [BitVec.getLsbD_allOnes]
      exact decide_eq_true hn
  apply BitVec.eq_of_getLsbD_eq
  intro k hk
  rw [immI, BitVec.getLsbD_append, BitVec.getLsbD_signExtend, hmsb, BitVec.getLsbD_extractLsb',
    BitVec.getLsbD_extractLsb']
  -- below the sign bit, at the sign bit, and its copies above it
  rcases Nat.lt_trichotomy k 11 with hlt | rfl | hgt
  · have h12 : k < 12 := by omega
    simp only [hlt, h12, hk, if_true, decide_true, Bool.true_and]
  · exact hfill 0 (by decide)
  · have h11 : ¬ k < 11 := by omega
    have h12 : ¬ k < 12 := by omega
    simp only [h11, h12, hk, if_false, decide_true, Bool.true_and]
    exact hfill (k - 11) (by omega)

theorem immI_low5 (code : Word) : (immI code).extractLsb' 0 5 = bImmLow5 code := by
  apply BitVec.eq_of_getLsbD_eq
  intro k hk
  have h11 : k < 11 := by omega
  simp only [immI, bImmLow5, BitVec.getLsbD_extractLsb', BitVec.getLsbD_append, hk, h11,
    Nat.zero_add, if_true, decide_true, Bool.true_and]

/-- The second operand of the instruction, as IDU fetches it. -/
theorem Fields.operand2_eq {op : ArithOp} (h : Fields code op.encoding) (S : BitVec 5 → Word) :
    (if isFmtI code then immI code else S (rs2 code)) =
      op.operand2 code (S (code.extractLsb' 20 5)) := by
  rw [ArithOp.operand2, h.fmt]
  cases himm : op.encoding.immediate with
  | true => exact immI_eq code
  | false =>
    have hmeta : metaInfo code = ⟨.reg, .arithmetic⟩ := by
      have ho : IDU.opcode code = 0b0110011#7 := by
        rw [h.opcode, Encoding.opcode, himm]
        rfl
      rw [metaInfo_of_opcode code ho]
      rfl
    simp [rs2, noNeedRs2, isFmt, hmeta]

/-! ## The unit that IDU chooses -/

/-- The recognisers of IDU for the instructions of a unit. -/
def chooses (code : Word) : ExecUnit → Bool
  | .fastInteger => isFastIntegerArithmetic code
  | .specialCluster => !isMExtArithmetic code && !isIterativeB code && isShortB code
  | .bExtension => !isMExtArithmetic code && isIterativeB code
  | .multiplier => isMExtArithmetic code && !(func3 code).getLsbD 2
  | .divider => isMExtArithmetic code && (func3 code).getLsbD 2

theorem chooses_int {op : IntOp} (h : Fields code op.encoding) :
    chooses code .fastInteger = true := by
  rcases h with ⟨htyp, hfmt, hopcode, hfunc3, hfunc7, _⟩
  -- the function fields of each instruction are literals, which the recognisers evaluate
  cases op <;>
    simp [IntOp.encoding, Encoding.reg, Encoding.opcode] at hfmt hopcode hfunc3 hfunc7 <;>
    simp [chooses, isFastIntegerArithmetic, isRv32iRegister, htyp, hfmt, hopcode, hfunc3, hfunc7]

theorem chooses_intImm {op : IntImmOp} (h : Fields code op.encoding) :
    chooses code .fastInteger = true := by
  rcases h with ⟨htyp, hfmt, hopcode, hfunc3, hfunc7, _⟩
  cases op <;>
    simp [IntImmOp.encoding, Encoding.imm, Encoding.shift, Encoding.opcode] at hfmt hopcode hfunc3 hfunc7 <;>
    simp [chooses, isFastIntegerArithmetic, isRv32iImmediate, htyp, hfmt, hopcode, hfunc3, hfunc7]

theorem chooses_bit {op : BOp} (htyp : isTyp code .arithmetic = true)
    (h : Carries code op.encoding) : chooses code (unitOf (.bit op)) = true := by
  rcases h with ⟨hfmt, hfunc3, hfunc7, hlow5⟩
  cases op <;>
    simp [BOp.encoding, Encoding.reg, Encoding.shift, Encoding.unary] at hfmt hfunc3 hfunc7 hlow5 <;>
    simp [unitOf, chooses, isFastIntegerArithmetic, isPack, isMExtArithmetic, isIterativeB, isShortB,
      isBCount, isBClmul, isBOrcB, isBXperm4, isBRor, isBShiftAdd, isBSext, isBMinu, isBBext, isBSet,
      isBClr, isBInv, isBAndn, isBOrn, isBXnor, isBMax, isBMaxu, isBMin, isBRol, isBRev8, isReg,
      isEither, isImmSel, htyp, hfmt, hfunc3, hfunc7, hlow5]

/-- IDU chooses the unit that is meant for the instruction. -/
theorem chooses_unit {op : ArithOp} (h : Fields code op.encoding) :
    chooses code (unitOf op) = true := by
  cases op with
  | int op => exact chooses_int h
  | intImm op => exact chooses_intImm h
  | bit op => exact chooses_bit h.typ h.carries
  | mul op =>
    have hfmt : isFmtI code = false := h.fmt
    have hfunc3 : func3 code = op.func3t := h.func3
    have hfunc7 : func7 code = 0b0000001#7 := h.func7 _ rfl
    have hlow : op.func3t.getLsbD 2 = false := by cases op <;> rfl
    rw [unitOf, chooses, isMExtArithmetic, hfmt, hfunc3, hfunc7, hlow]
    rfl
  | div op =>
    have hfmt : isFmtI code = false := h.fmt
    have hfunc3 : func3 code = op.func3t := h.func3
    have hfunc7 : func7 code = 0b0000001#7 := h.func7 _ rfl
    have hhigh : op.func3t.getLsbD 2 = true := by cases op <;> rfl
    rw [unitOf, chooses, isMExtArithmetic, hfmt, hfunc3, hfunc7, hhigh]
    rfl

/-- The kind of the result follows the unit. -/
theorem resultKind_of_chooses {e : Encoding} (h : Fields code e) {u : ExecUnit}
    (hu : chooses code u = true) :
    resultKind code = if u = .fastInteger then .fastInt else .longArithmetic := by
  have htyp : (metaInfo code).typ = .arithmetic := by simpa [isTyp] using h.typ
  by_cases hfast : u = .fastInteger
  · rw [if_pos hfast]
    rw [hfast] at hu
    exact resultKind_of_fast hu
  -- every other unit serves long arithmetic
  · have hlong : isLongArithmetic code = true := by
      cases u with
      | fastInteger => exact absurd rfl hfast
      | specialCluster =>
        simp only [chooses, Bool.and_eq_true] at hu
        simp [isLongArithmetic, h.typ, hu.2]
      | bExtension =>
        simp only [chooses, Bool.and_eq_true] at hu
        simp [isLongArithmetic, h.typ, hu.2]
      | multiplier =>
        simp only [chooses, Bool.and_eq_true] at hu
        simp [isLongArithmetic, h.typ, hu.1]
      | divider =>
        simp only [chooses, Bool.and_eq_true] at hu
        simp [isLongArithmetic, h.typ, hu.1]
    rw [if_neg hfast]
    simp [resultKind, isTyp, htyp, h.not_accelerator, hlong]

/-! ## Every recognised encoding is an instruction -/

/-- IDU takes the word for a bit manipulation. -/
def recognisesB (code : Word) : Bool := isIterativeB code || isShortB code || isPack code

section Recognised

theorem carries_reg {f7 : BitVec 7} {f3 : BitVec 3} (h : isReg code f7 f3 = true) :
    Carries code (.reg f7 f3) := by
  simp only [isReg, Bool.and_eq_true, Bool.not_eq_true', beq_iff_eq] at h
  exact ⟨h.1.1, h.2, fun _ hf => Option.mem_some_iff.mp hf ▸ h.1.2,
    fun _ hs => absurd hs (Option.not_mem_none _)⟩

theorem carries_unary {f7 : BitVec 7} {f3 : BitVec 3} {sel : BitVec 5}
    (h : isImmSel code f7 f3 sel = true) : Carries code (.unary f7 f3 sel) := by
  simp only [isImmSel, Bool.and_eq_true, beq_iff_eq] at h
  exact ⟨h.1.1.1, h.1.2, fun _ hf => Option.mem_some_iff.mp hf ▸ h.1.1.2,
    fun _ hs => Option.mem_some_iff.mp hs ▸ h.2⟩

theorem exists_of_either {f7 : BitVec 7} {f3 : BitVec 3} (a b : BOp)
    (ha : a.encoding = .reg f7 f3) (hb : b.encoding = .shift f7 f3)
    (h : isEither code f7 f3 = true) : ∃ op : BOp, Carries code op.encoding := by
  simp only [isEither, Bool.and_eq_true, beq_iff_eq] at h
  cases hfmt : isFmtI code with
  | false =>
    refine ⟨a, ha ▸ ⟨hfmt, h.2, fun _ hf => Option.mem_some_iff.mp hf ▸ h.1, ?_⟩⟩
    exact fun _ hs => absurd hs (Option.not_mem_none _)
  | true =>
    refine ⟨b, hb ▸ ⟨hfmt, h.2, fun _ hf => Option.mem_some_iff.mp hf ▸ h.1, ?_⟩⟩
    exact fun _ hs => absurd hs (Option.not_mem_none _)

theorem exists_of_iterativeB (h : isIterativeB code = true) :
    ∃ op : BOp, Carries code op.encoding := by
  simp only [isIterativeB, isBCount, isBClmul, isBOrcB, isBXperm4, isBRor, Bool.or_eq_true,
    or_assoc] at h
  rcases h with h | h | h | h | h | h | h | h
  · exact ⟨.clz, carries_unary h⟩
  · exact ⟨.ctz, carries_unary h⟩
  · exact ⟨.cpop, carries_unary h⟩
  · exact ⟨.clmul, carries_reg h⟩
  · exact ⟨.clmulh, carries_reg h⟩
  · exact ⟨.orcB, carries_unary h⟩
  · exact ⟨.xperm4, carries_reg h⟩
  · exact exists_of_either .ror .rori rfl rfl h

theorem exists_of_shortB (h : isShortB code = true) : ∃ op : BOp, Carries code op.encoding := by
  simp only [isShortB, isBShiftAdd, isBSext, isBMinu, isBBext, isBSet, isBClr, isBInv, isBAndn,
    isBOrn, isBXnor, isBMax, isBMaxu, isBMin, isBRol, isBRev8, Bool.or_eq_true, or_assoc] at h
  rcases h with h | h | h | h | h | h | h | h | h | h | h | h | h | h | h | h | h | h
  · exact ⟨.sh1add, carries_reg h⟩
  · exact ⟨.sh2add, carries_reg h⟩
  · exact ⟨.sh3add, carries_reg h⟩
  · exact ⟨.sextB, carries_unary h⟩
  · exact ⟨.sextH, carries_unary h⟩
  · exact ⟨.minu, carries_reg h⟩
  · exact exists_of_either .bext .bexti rfl rfl h
  · exact exists_of_either .bset .bseti rfl rfl h
  · exact exists_of_either .bclr .bclri rfl rfl h
  · exact exists_of_either .binv .binvi rfl rfl h
  · exact ⟨.andn, carries_reg h⟩
  · exact ⟨.orn, carries_reg h⟩
  · exact ⟨.xnor, carries_reg h⟩
  · exact ⟨.max, carries_reg h⟩
  · exact ⟨.maxu, carries_reg h⟩
  · exact ⟨.min, carries_reg h⟩
  · exact ⟨.rol, carries_reg h⟩
  · exact ⟨.rev8, carries_unary h⟩

/-- What IDU takes for a bit manipulation has the function fields of one. -/
theorem exists_carries_of_recognisesB (h : recognisesB code = true) :
    ∃ op : BOp, Carries code op.encoding := by
  simp only [recognisesB, Bool.or_eq_true] at h
  rcases h with (h | h) | h
  · exact exists_of_iterativeB h
  · exact exists_of_shortB h
  · exact ⟨.pack, carries_reg h⟩

variable (hop : opcode code = 0b0010011#7 ∨ opcode code = 0b0110011#7)

include hop

theorem opcode_of_fmt : opcode code = if isFmtI code then 0b0010011#7 else 0b0110011#7 := by
  rcases hop with ho | ho
  · have hfmt : isFmtI code = true := by
      rw [isFmtI, isFmt, metaInfo_of_opcode code ho]
      rfl
    rw [hfmt, if_pos rfl, ho]
  · have hfmt : isFmtI code = false := by
      rw [isFmtI, isFmt, metaInfo_of_opcode code ho]
      rfl
    rw [hfmt, if_neg (by decide), ho]

/-- In the OP and OP-IMM opcodes the function fields make the instruction. -/
theorem Carries.matches {e : Encoding} (h : Carries code e) : e.Matches code := by
  refine ⟨?_, h.func3, h.func7, h.low5⟩
  have ho := opcode_of_fmt hop
  rwa [h.fmt] at ho

/-- What IDU takes for a bit manipulation is one. -/
theorem exists_of_recognisesB (h : recognisesB code = true) :
    ∃ op : BOp, op.encoding.Matches code := by
  obtain ⟨op, hcarries⟩ := exists_carries_of_recognisesB h
  exact ⟨op, hcarries.matches hop⟩

end Recognised

end IDU

/-! ## The fast integer ALU -/

/-- The low five bits of an operand as a shift amount. -/
theorem shamt_eq (b : Word) : (b.extractLsb' 0 5).toNat = index b := by
  simp [index, BitVec.extractLsb'_toNat]

theorem ofCondition_eq {c : Bool} {p : Prop} [Decidable p] (h : c = decide p) :
    (BitVec.ofBool c).setWidth 32 = ofCondition p := by
  by_cases hp : p <;> simp [h, ofCondition, hp]

namespace FastIntegerALU

/-- The sum of the low halves, with its carry. -/
theorem addSubLow_toNat (a b : Word) (c : Bool) :
    ((a.extractLsb' 0 16).setWidth 17 + (b.extractLsb' 0 16).setWidth 17 +
      (BitVec.ofBool c).setWidth 17 : BitVec 17).toNat =
      a.toNat % 65536 + b.toNat % 65536 + c.toNat := by
  have hc : c.toNat ≤ 1 := Bool.toNat_le c
  simp only [BitVec.toNat_add, BitVec.toNat_setWidth, BitVec.extractLsb'_toNat,
    Nat.shiftRight_zero, BitVec.toNat_ofBool]
  omega

/-- The carry-select adder adds. -/
theorem carrySelect_eq (a b : Word) (c : Bool) {low : BitVec 17}
    (hlow : low.toNat = a.toNat % 65536 + b.toNat % 65536 + c.toNat) :
    (if low.getLsbD 16 then a.extractLsb' 16 16 + b.extractLsb' 16 16 + 1
      else a.extractLsb' 16 16 + b.extractLsb' 16 16) ++ low.extractLsb' 0 16 =
      a + b + (BitVec.ofBool c).setWidth 32 := by
  have hc : c.toNat ≤ 1 := Bool.toNat_le c
  have ha := a.isLt
  have hb := b.isLt
  have hlt := (low.extractLsb' 0 16).isLt
  have hone : (1 : BitVec 16).toNat = 1 := rfl
  apply BitVec.eq_of_toNat_eq
  rw [BitVec.toNat_append, ← Nat.shiftLeft_add_eq_or_of_lt hlt, Nat.shiftLeft_eq,
    getLsbD_eq_decide]
  simp only [decide_eq_true_eq]
  split <;>
    simp only [BitVec.toNat_add, BitVec.extractLsb'_toNat, BitVec.toNat_setWidth,
      BitVec.toNat_ofBool, Nat.shiftRight_eq_div_pow, hone, hlow] <;> omega

theorem addSubResult_eq (i : FastIntegerALUInput) :
    addSubResult i = if i.isSub then i.src1 - i.src2 else i.src1 + i.src2 := by
  rw [addSubResult]
  rw [carrySelect_eq _ _ _ (addSubLow_toNat _ _ _)]
  cases i.isSub with
  | false => simp
  | true =>
    -- subtraction adds the complement with a carry in
    have hneg : ~~~i.src2 + 1#32 = -i.src2 := (BitVec.neg_eq_not_add i.src2).symm
    simp only [if_true]
    rw [BitVec.add_assoc, BitVec.sub_eq_add_neg, ← hneg]
    rfl

/-- What the ALU has to be told beside the function field for it to compute `op`. -/
structure Selects (i : FastIntegerALUInput) (op : IntOp) : Prop where
  func3 : i.func3t = op.encoding.func3
  add : op = .add → i.isSub = false
  sub : op = .sub → i.isSub = true
  srl : op = .srl → i.func7t.getLsbD 5 = false
  sra : op = .sra → i.func7t.getLsbD 5 = true
  xor : op = .xor → isPack i = false

theorem outBits_of_selects {i : FastIntegerALUInput} {op : IntOp} (h : Selects i op) :
    outBits i = op.result i.src1 i.src2 := by
  rcases h with ⟨hfunc3, hadd, hsub, hsrl, hsra, hxor⟩
  cases op <;> simp [IntOp.encoding, Encoding.reg] at hfunc3 <;>
    simp only [outBits, addSubResult_eq, hfunc3, shamt_eq, IntOp.result]
  case add => rw [hadd rfl, if_neg (by decide)]
  case sub => rw [hsub rfl, if_pos rfl]
  case slt => exact ofCondition_eq rfl
  case sltu => exact ofCondition_eq rfl
  case xor => rw [hxor rfl, if_neg (by decide)]
  case srl => rw [hsrl rfl, if_neg (by decide)]
  case sra => rw [hsra rfl, if_pos rfl]
  case and => rfl

end FastIntegerALU

/-- The wires that EXU puts on the fast ALU for an instruction word and two operands. -/
def fastInput (code a b : Word) : FastIntegerALUInput where
  isImm := IDU.isFmtI code
  isSub := !IDU.isFmtI code && code.getLsbD 30
  func3t := IDU.func3 code
  func7t := IDU.func7 code
  src1 := a
  src2 := b

/-- The fast ALU computes every instruction that IDU sends it. -/
theorem outBits_fastInput {op : ArithOp} (hop : unitOf op = .fastInteger) {code : Word}
    (h : IDU.Fields code op.encoding) (a b : Word) :
    FastIntegerALU.outBits (fastInput code a b) = op.result a b := by
  have hbit : code.getLsbD 30 = (IDU.func7 code).getLsbD 5 := by
    rw [IDU.func7, BitVec.getLsbD_extractLsb']
    rfl
  rw [fastInput, hbit]
  rcases h with ⟨_, hfmt, _, hfunc3, hfunc7, _⟩
  cases op with
  | int op =>
    refine @FastIntegerALU.outBits_of_selects _ op ?_
    cases op <;>
      simp [ArithOp.encoding, IntOp.encoding, Encoding.reg] at hfmt hfunc3 hfunc7 <;>
      constructor <;>
        simp [IntOp.encoding, Encoding.reg, FastIntegerALU.isPack, hfmt, hfunc3, hfunc7]
  | intImm op =>
    refine @FastIntegerALU.outBits_of_selects _ op.toIntOp ?_
    cases op <;>
      simp [ArithOp.encoding, IntImmOp.encoding, Encoding.imm, Encoding.shift] at hfmt hfunc3 hfunc7 <;>
      constructor <;>
        simp [IntOp.encoding, IntImmOp.toIntOp, Encoding.reg, FastIntegerALU.isPack, hfmt, hfunc3,
          hfunc7]
  | bit op =>
    cases op <;> simp [unitOf] at hop
    simp [ArithOp.encoding, BOp.encoding, Encoding.reg] at hfmt hfunc3 hfunc7
    simp [FastIntegerALU.outBits, FastIntegerALU.isPack, hfmt, hfunc3, hfunc7, ArithOp.result,
      BOp.result]
  | mul op => simp [unitOf] at hop
  | div op => simp [unitOf] at hop

/-! ## The special cluster -/

namespace SpecialExecutionCluster

/-- The request carries the fields of the instruction. -/
structure Asks (i : ALUInput) (e : Encoding) : Prop where
  is_imm : i.is_imm = e.immediate
  func3t : i.func3t = e.func3
  func7t : ∀ f ∈ e.func7, i.func7t = f
  low5 : ∀ s ∈ e.rs2, i.src2.extractLsb' 0 5 = s

theorem bext_eq (a b : Word) :
    ((a >>> index b).extractLsb' 0 1).setWidth 32 = ofCondition (a.getLsbD (index b) = true) := by
  have hbit : (a >>> index b).extractLsb' 0 1 = BitVec.ofBool (a.getLsbD (index b)) := by
    apply BitVec.eq_of_getLsbD_eq
    intro k hk
    obtain rfl : k = 0 := by omega
    simp only [BitVec.getLsbD_extractLsb', BitVec.getLsbD_ushiftRight, BitVec.getLsbD_ofBool]
    simp
  rw [hbit]
  exact ofCondition_eq (by simp)

theorem rol_eq (a b : Word) :
    (if index b = 0 then a else a <<< index b ||| a >>> (32 - index b)) = a.rotateLeft (index b) := by
  have hlt : index b < 32 := Nat.mod_lt _ (by decide)
  rw [BitVec.rotateLeft_def]
  rw [Nat.mod_eq_of_lt hlt]
  split
  · rename_i h0
    -- a rotation by zero has its own branch, as the right shift would be by 32
    rw [h0, BitVec.ushiftRight_eq_zero (Nat.le_refl 32)]
    simp
  · rfl

/-- The cluster computes the short operations. -/
theorem aluResult_eq {op : BOp} (hop : unitOf (.bit op) = .specialCluster) {i : ALUInput}
    (h : Asks i op.encoding) : aluResult i = op.result i.src1 i.src2 := by
  rcases h with ⟨himm, hfunc3, hfunc7, hlow5⟩
  cases op <;> simp [unitOf] at hop <;>
    simp [BOp.encoding, Encoding.reg, Encoding.shift, Encoding.unary] at himm hfunc3 hfunc7 hlow5 <;>
    simp [aluResult, isReg, isImmSel, isEither, himm, hfunc3, hfunc7, hlow5, BOp.result, index,
      BitVec.ult, BitVec.slt]
  case bext => exact bext_eq _ _
  case bexti => exact bext_eq _ _
  case rol =>
    rw [← BitVec.rotateLeft_mod_eq_rotateLeft]
    exact rol_eq _ _
  case rev8 => rfl

end SpecialExecutionCluster

end Core
end Jyd
