import Jyd.Core.Execution

/-!
# Classify — the instruction audit of a disassembly

`classify_instruction` of the objdump auditor sorts the words of a listing by what the core is
known to implement.  For OP and OP-IMM words the comparison with the core is exact but for the
bit manipulations that the auditor's tables do not list.
-/

namespace Jyd
namespace Objdump

open Hdl Isa Jyd.Core

/-! ## The auditor -/

inductive Category
  | rv32i
  | rv32m
  | supportedB
  | coarseBUnsupported
  | supportedSystem
  | unknown
  deriving DecidableEq, Repr

/-- The text of a number in base 16, filled up with zeros. -/
def hex (width n : ℕ) : String :=
  let digits := Nat.toDigits 16 n
  "0x" ++ String.ofList (List.replicate (width - digits.length) '0' ++ digits)

section Classification

variable (word : Word)

def opcodeField : BitVec 7 := word.extractLsb' 0 7
def funct3 : BitVec 3 := word.extractLsb' 12 3
def funct7 : BitVec 7 := word.extractLsb' 25 7
def rs2OrImm5 : BitVec 5 := word.extractLsb' 20 5

/-- The table of OP-IMM bit manipulations. -/
def supportedOpImm : List ((BitVec 3 × BitVec 7 × BitVec 5) × String) :=
  [((0b001, 0b0110000, 0), "clz"),
   ((0b001, 0b0110000, 1), "ctz"),
   ((0b001, 0b0110000, 2), "cpop"),
   ((0b101, 0b0010100, 7), "orc.b")]

/-- The table of OP bit manipulations. -/
def supportedOp : List ((BitVec 3 × BitVec 7) × String) :=
  [((0b001, 0b0000101), "clmul"),
   ((0b010, 0b0010100), "xperm4"),
   ((0b101, 0b0110000), "ror"),
   ((0b100, 0b0000100), "pack")]

def classifyOpImm : Category × String :=
  if funct3 word ≠ 0b001 ∧ funct3 word ≠ 0b101 then (.rv32i, "RV32I OP-IMM")
  else if funct3 word = 0b001 ∧ funct7 word = 0 then (.rv32i, "RV32I SLLI")
  else if funct3 word = 0b101 ∧ (funct7 word = 0 ∨ funct7 word = 0b0100000) then
    (.rv32i, "RV32I SRLI/SRAI")
  else
    match supportedOpImm.lookup (funct3 word, funct7 word, rs2OrImm5 word) with
    | some operation => (.supportedB, operation)
    | none =>
      (.coarseBUnsupported,
        "unimplemented OP-IMM: funct7=" ++ hex 2 (funct7 word).toNat ++ " funct3=" ++
          hex 1 (funct3 word).toNat ++ " imm[4:0]=" ++ hex 2 (rs2OrImm5 word).toNat)

def classifyOp : Category × String :=
  if funct7 word = 0 ∨ (funct7 word = 0b0100000 ∧ (funct3 word = 0b000 ∨ funct3 word = 0b101)) then
    (.rv32i, "RV32I OP")
  else if funct7 word = 0b0000001 then (.rv32m, "RV32M")
  else
    match supportedOp.lookup (funct3 word, funct7 word) with
    | some operation => (.supportedB, operation)
    | none =>
      (.coarseBUnsupported,
        "unimplemented OP: funct7=" ++ hex 2 (funct7 word).toNat ++ " funct3=" ++
          hex 1 (funct3 word).toNat)

def classifyArithmetic : Option (Category × String) :=
  if opcodeField word ≠ 0x13 ∧ opcodeField word ≠ 0x33 then none
  else if opcodeField word = 0x13 then some (classifyOpImm word)
  else some (classifyOp word)

/-- A word whose `funct3` decides. -/
def byFunct3 (supported : List (BitVec 3)) (name : String) : Category × String :=
  if funct3 word ∈ supported then (.rv32i, name)
  else (.unknown, "reserved/unsupported " ++ name ++ " funct3=" ++ hex 1 (funct3 word).toNat)

def classifyMiscMem : Category × String :=
  if funct3 word = 0 ∧ word.extractLsb' 7 5 = 0#5 ∧ word.extractLsb' 15 5 = 0#5 then
    (.rv32i, "FENCE")
  else if funct3 word = 1 then (.unknown, "FENCE.I is explicitly unsupported by the current IDU")
  else
    (.unknown, "reserved/unsupported MISC-MEM encoding funct3=" ++ hex 1 (funct3 word).toNat)

def classifySystem : Category × String :=
  if word = 0x00000073#32 then (.supportedSystem, "ECALL")
  else if word = 0x30200073#32 then (.supportedSystem, "MRET")
  else if funct3 word ∈ [0b001#3, 0b010#3, 0b011#3, 0b101#3, 0b110#3, 0b111#3] then
    (.supportedSystem, "CSR")
  else if word = 0x00100073#32 then
    (.unknown, "EBREAK is legal RV32I but is not implemented by the current CPU")
  else
    (.unknown, "unsupported SYSTEM/privileged encoding funct3=" ++ hex 1 (funct3 word).toNat)

def classifyInstruction : Category × String :=
  match classifyArithmetic word with
  | some (category, detail) =>
    if category = .coarseBUnsupported then
      (.unknown, "current IDU routes this encoding to BExtensionUnit; " ++ detail)
    else (category, detail)
  | none =>
    if opcodeField word = 0x37 then (.rv32i, "LUI")
    else if opcodeField word = 0x17 then (.rv32i, "AUIPC")
    else if opcodeField word = 0x6f then (.rv32i, "JAL")
    else if opcodeField word = 0x67 then byFunct3 word [0b000] "JALR"
    else if opcodeField word = 0x63 then
      byFunct3 word [0b000, 0b001, 0b100, 0b101, 0b110, 0b111] "BRANCH"
    else if opcodeField word = 0x03 then
      byFunct3 word [0b000, 0b001, 0b010, 0b100, 0b101] "LOAD"
    else if opcodeField word = 0x23 then byFunct3 word [0b000, 0b001, 0b010] "STORE"
    else if opcodeField word = 0x0f then classifyMiscMem word
    else if opcodeField word = 0x73 then classifySystem word
    else
      (.unknown,
        "opcode=" ++ hex 2 (opcodeField word).toNat ++ " is outside the current CPU support set")

end Classification

/-- The auditor reports the arithmetic word as supported. -/
def Category.Supported (c : Category) : Prop := c = .rv32i ∨ c = .rv32m ∨ c = .supportedB

/-! ## The core -/

open CPUCore in
/-- The word is an instruction, and whenever the core issues it, it goes to the unit of this
instruction alone and completes with its result. -/
def Implements (word : Word) : Prop :=
  ∃ op : ArithOp, op.encoding.Matches word ∧
    ∀ (R : Run machine) (s : ℕ), Issues R s → IDU.inst (issuing R s) = word →
      (∀ u, EXU.accepts (R.state (s + 1)).exu (exuIn (R.state (s + 1)) (R.input (s + 1))) u =
        decide (u = unitOf op)) ∧
      ∃ t, Executes R (IDU.outBits (issuing R s)) (s + 1) t ∧
        resultAt R t = op.result (issueRegs R s (word.extractLsb' 15 5))
          (op.operand2 word (issueRegs R s (word.extractLsb' 20 5)))

theorem implements_iff (word : Word) :
    Implements word ↔ ∃ op : ArithOp, op.encoding.Matches word := by
  constructor
  · rintro ⟨op, hmatches, -⟩
    exact ⟨op, hmatches⟩
  · rintro ⟨op, hmatches⟩
    refine ⟨op, hmatches, fun R s hissues hinst => ?_⟩
    subst hinst
    exact CPUCore.executes_of_matches hissues hmatches

/-! ## The comparison -/

/-- The bit manipulations of the auditor's tables. -/
def listed : BOp → Bool
  | .clz | .ctz | .cpop | .orcB | .clmul | .xperm4 | .ror | .pack => true
  | _ => false

/-- What the auditor says about an instruction. -/
def categoryOf : ArithOp → Category
  | .int _ | .intImm _ => .rv32i
  | .mul _ | .div _ => .rv32m
  | .bit op => if listed op then .supportedB else .unknown

theorem isSome_supportedOpImm (f3 : BitVec 3) (f7 : BitVec 7) (imm5 : BitVec 5) :
    (supportedOpImm.lookup (f3, f7, imm5)).isSome =
      decide ((f3 = 0b001 ∧ f7 = 0b0110000 ∧ (imm5 = 0 ∨ imm5 = 1 ∨ imm5 = 2)) ∨
        (f3 = 0b101 ∧ f7 = 0b0010100 ∧ imm5 = 7)) := by
  rw [Bool.eq_iff_iff, List.lookup_isSome_iff, decide_eq_true_iff]
  simp only [supportedOpImm, List.mem_cons, List.not_mem_nil, or_false, exists_eq_or_imp,
    exists_eq_left, beq_iff_eq, Prod.mk.injEq]
  tauto

theorem isSome_supportedOp (f3 : BitVec 3) (f7 : BitVec 7) :
    (supportedOp.lookup (f3, f7)).isSome =
      decide ((f3 = 0b001 ∧ f7 = 0b0000101) ∨ (f3 = 0b010 ∧ f7 = 0b0010100) ∨
        (f3 = 0b101 ∧ f7 = 0b0110000) ∨ (f3 = 0b100 ∧ f7 = 0b0000100)) := by
  rw [Bool.eq_iff_iff, List.lookup_isSome_iff, decide_eq_true_iff]
  simp only [supportedOp, List.mem_cons, List.not_mem_nil, or_false, exists_eq_or_imp,
    exists_eq_left, beq_iff_eq, Prod.mk.injEq]

section Words

variable {word : Word}

/-- The category of an OP-IMM word. -/
theorem classifyInstruction_opImm (h : opcodeField word = 0x13) :
    (classifyInstruction word).1 =
      if funct3 word ≠ 0b001 ∧ funct3 word ≠ 0b101 then .rv32i
      else if funct3 word = 0b001 ∧ funct7 word = 0 then .rv32i
      else if funct3 word = 0b101 ∧ (funct7 word = 0 ∨ funct7 word = 0b0100000) then .rv32i
      else if (supportedOpImm.lookup (funct3 word, funct7 word, rs2OrImm5 word)).isSome then
        .supportedB
      else .unknown := by
  rw [classifyInstruction, classifyArithmetic, if_neg (by simp [h]), if_pos h, classifyOpImm]
  cases supportedOpImm.lookup (funct3 word, funct7 word, rs2OrImm5 word) <;> dsimp only <;>
    split_ifs <;> simp_all

/-- The category of an OP word. -/
theorem classifyInstruction_op (h : opcodeField word = 0x33) :
    (classifyInstruction word).1 =
      if funct7 word = 0 ∨ (funct7 word = 0b0100000 ∧ (funct3 word = 0b000 ∨ funct3 word = 0b101)) then
        .rv32i
      else if funct7 word = 0b0000001 then .rv32m
      else if (supportedOp.lookup (funct3 word, funct7 word)).isSome then .supportedB
      else .unknown := by
  rw [classifyInstruction, classifyArithmetic, if_neg (by simp [h]), if_neg (by simp [h]), classifyOp]
  cases supportedOp.lookup (funct3 word, funct7 word) <;> dsimp only <;> split_ifs <;> simp_all

/-- Every instruction gets its category. -/
theorem classify_of_matches {op : ArithOp} (h : op.encoding.Matches word) :
    (classifyInstruction word).1 = categoryOf op := by
  rcases h with ⟨hop, h3, h7, h5⟩
  change opcodeField word = _ at hop
  change funct3 word = _ at h3
  change ∀ f ∈ _, funct7 word = f at h7
  change ∀ f ∈ _, rs2OrImm5 word = f at h5
  cases op with
  | int op =>
    rw [classifyInstruction_op (by cases op <;> exact hop)]
    cases op <;> simp [ArithOp.encoding, IntOp.encoding, Encoding.reg] at h3 h7 <;>
      simp [h3, h7, categoryOf]
  | intImm op =>
    rw [classifyInstruction_opImm (by cases op <;> exact hop)]
    cases op <;> simp [ArithOp.encoding, IntImmOp.encoding, Encoding.imm, Encoding.shift] at h3 h7 <;>
      simp [h3, h7, categoryOf]
  | mul op =>
    rw [classifyInstruction_op hop]
    simp [ArithOp.encoding, Encoding.reg] at h7
    simp [h7, categoryOf]
  | div op =>
    rw [classifyInstruction_op hop]
    simp [ArithOp.encoding, Encoding.reg] at h7
    simp [h7, categoryOf]
  | bit op =>
    cases op <;>
      simp [ArithOp.encoding, BOp.encoding, Encoding.reg, Encoding.shift, Encoding.unary,
        Encoding.opcode] at hop h3 h7 h5 <;>
      simp [classifyInstruction_op, classifyInstruction_opImm, isSome_supportedOp,
        isSome_supportedOpImm, hop, h3, h7, h5, categoryOf, listed]

theorem exists_opImm (hop : opcodeField word = 0x13)
    (h : (classifyInstruction word).1 ≠ .unknown) : ∃ op : ArithOp, op.encoding.Matches word := by
  rw [classifyInstruction_opImm hop, isSome_supportedOpImm] at h
  split_ifs at h with hwhole hsll hsr hbit
  · -- the other values of funct3 use the whole immediate
    have hcases : ∀ f : BitVec 3, f ≠ 1 ∧ f ≠ 5 → f = 0 ∨ f = 2 ∨ f = 3 ∨ f = 4 ∨ f = 6 ∨ f = 7 := by
      decide
    rcases hcases _ hwhole with h3 | h3 | h3 | h3 | h3 | h3
    · exact ⟨.intImm .addi, Encoding.Matches.imm hop h3⟩
    · exact ⟨.intImm .slti, Encoding.Matches.imm hop h3⟩
    · exact ⟨.intImm .sltiu, Encoding.Matches.imm hop h3⟩
    · exact ⟨.intImm .xori, Encoding.Matches.imm hop h3⟩
    · exact ⟨.intImm .ori, Encoding.Matches.imm hop h3⟩
    · exact ⟨.intImm .andi, Encoding.Matches.imm hop h3⟩
  · exact ⟨.intImm .slli, Encoding.Matches.shift hop hsll.2 hsll.1⟩
  · rcases hsr with ⟨h3, h7 | h7⟩
    · exact ⟨.intImm .srli, Encoding.Matches.shift hop h7 h3⟩
    · exact ⟨.intImm .srai, Encoding.Matches.shift hop h7 h3⟩
  · rcases of_decide_eq_true hbit with ⟨h3, h7, h5 | h5 | h5⟩ | ⟨h3, h7, h5⟩
    · exact ⟨.bit .clz, Encoding.Matches.unary hop h7 h3 h5⟩
    · exact ⟨.bit .ctz, Encoding.Matches.unary hop h7 h3 h5⟩
    · exact ⟨.bit .cpop, Encoding.Matches.unary hop h7 h3 h5⟩
    · exact ⟨.bit .orcB, Encoding.Matches.unary hop h7 h3 h5⟩
  · exact absurd rfl h

theorem exists_op (hop : opcodeField word = 0x33) (h : (classifyInstruction word).1 ≠ .unknown) :
    ∃ op : ArithOp, op.encoding.Matches word := by
  have hcases : ∀ f : BitVec 3, f = 0 ∨ f = 1 ∨ f = 2 ∨ f = 3 ∨ f = 4 ∨ f = 5 ∨ f = 6 ∨ f = 7 := by
    decide
  rw [classifyInstruction_op hop, isSome_supportedOp] at h
  split_ifs at h with hint hm hbit
  · rcases hint with h7 | ⟨h7, h3 | h3⟩
    -- funct7 is zero: every value of funct3 is taken
    · rcases hcases (funct3 word) with h3 | h3 | h3 | h3 | h3 | h3 | h3 | h3
      · exact ⟨.int .add, Encoding.Matches.reg hop h7 h3⟩
      · exact ⟨.int .sll, Encoding.Matches.reg hop h7 h3⟩
      · exact ⟨.int .slt, Encoding.Matches.reg hop h7 h3⟩
      · exact ⟨.int .sltu, Encoding.Matches.reg hop h7 h3⟩
      · exact ⟨.int .xor, Encoding.Matches.reg hop h7 h3⟩
      · exact ⟨.int .srl, Encoding.Matches.reg hop h7 h3⟩
      · exact ⟨.int .or, Encoding.Matches.reg hop h7 h3⟩
      · exact ⟨.int .and, Encoding.Matches.reg hop h7 h3⟩
    · exact ⟨.int .sub, Encoding.Matches.reg hop h7 h3⟩
    · exact ⟨.int .sra, Encoding.Matches.reg hop h7 h3⟩
  · rcases hcases (funct3 word) with h3 | h3 | h3 | h3 | h3 | h3 | h3 | h3
    · exact ⟨.mul .mul, Encoding.Matches.reg hop hm h3⟩
    · exact ⟨.mul .mulh, Encoding.Matches.reg hop hm h3⟩
    · exact ⟨.mul .mulhsu, Encoding.Matches.reg hop hm h3⟩
    · exact ⟨.mul .mulhu, Encoding.Matches.reg hop hm h3⟩
    · exact ⟨.div .div, Encoding.Matches.reg hop hm h3⟩
    · exact ⟨.div .divu, Encoding.Matches.reg hop hm h3⟩
    · exact ⟨.div .rem, Encoding.Matches.reg hop hm h3⟩
    · exact ⟨.div .remu, Encoding.Matches.reg hop hm h3⟩
  · rcases of_decide_eq_true hbit with ⟨h3, h7⟩ | ⟨h3, h7⟩ | ⟨h3, h7⟩ | ⟨h3, h7⟩
    · exact ⟨.bit .clmul, Encoding.Matches.reg hop h7 h3⟩
    · exact ⟨.bit .xperm4, Encoding.Matches.reg hop h7 h3⟩
    · exact ⟨.bit .ror, Encoding.Matches.reg hop h7 h3⟩
    · exact ⟨.bit .pack, Encoding.Matches.reg hop h7 h3⟩
  · exact absurd rfl h

variable (hop : opcodeField word = 0x13 ∨ opcodeField word = 0x33)

include hop

/-- An arithmetic word is supported or unknown, never anything else. -/
theorem supported_iff_ne_unknown :
    (classifyInstruction word).1.Supported ↔ (classifyInstruction word).1 ≠ .unknown := by
  rcases hop with h | h
  · rw [classifyInstruction_opImm h]
    split_ifs <;> simp [Category.Supported]
  · rw [classifyInstruction_op h]
    split_ifs <;> simp [Category.Supported]

/-- What the auditor calls supported is an instruction. -/
theorem exists_of_supported (h : (classifyInstruction word).1.Supported) :
    ∃ op : ArithOp, op.encoding.Matches word := by
  have hne := (supported_iff_ne_unknown hop).mp h
  rcases hop with ho | ho
  · exact exists_opImm ho hne
  · exact exists_op ho hne

end Words

/-- The auditor is right about a word: it supports what the core implements, and everything else
is unknown to it. -/
def AuditExact (word : Word) : Prop :=
  ((classifyInstruction word).1.Supported ↔ Implements word) ∧
    (¬ Implements word → (classifyInstruction word).1 = .unknown)

theorem unknown_of_unlisted {word : Word} {op : BOp} (hunlisted : listed op = false)
    (hmatches : (ArithOp.bit op).encoding.Matches word) :
    (classifyInstruction word).1 = .unknown := by
  rw [classify_of_matches hmatches]
  simp [categoryOf, hunlisted]

/-- The auditor is right about an OP or OP-IMM word unless it is a bit manipulation that is
missing in its tables. -/
theorem auditExact_iff (word : Word)
    (hop : word.extractLsb' 0 7 = 0b0010011#7 ∨ word.extractLsb' 0 7 = 0b0110011#7) :
    AuditExact word ↔ ¬ ∃ op : BOp, listed op = false ∧ op.encoding.Matches word := by
  rw [AuditExact, implements_iff]
  constructor
  · rintro ⟨hiff, -⟩ ⟨op, hunlisted, hmatches⟩
    have hsupported := hiff.mpr ⟨.bit op, hmatches⟩
    exact (supported_iff_ne_unknown hop).mp hsupported (unknown_of_unlisted hunlisted hmatches)
  · intro hnone
    have hiff : (classifyInstruction word).1.Supported ↔
        ∃ op : ArithOp, op.encoding.Matches word := by
      refine ⟨exists_of_supported hop, ?_⟩
      rintro ⟨op, hmatches⟩
      rw [classify_of_matches hmatches]
      cases op with
      | int op => exact Or.inl rfl
      | intImm op => exact Or.inl rfl
      | mul op => exact Or.inr (Or.inl rfl)
      | div op => exact Or.inr (Or.inl rfl)
      | bit op =>
        cases hl : listed op with
        | false => exact absurd ⟨op, hl, hmatches⟩ hnone
        | true => exact Or.inr (Or.inr (by simp [categoryOf, hl]))
    refine ⟨hiff, fun hno => ?_⟩
    -- an arithmetic word that is not unknown would be supported
    by_contra hne
    exact hno (hiff.mp ((supported_iff_ne_unknown hop).mpr hne))

/-- `clz x1, x1` is in the table. -/
theorem auditExact_iff_clz : AuditExact 0x60009093#32 :=
  (auditExact_iff 0x60009093#32 (by decide)).mpr fun ⟨_, hunlisted, hmatches⟩ =>
    absurd (unknown_of_unlisted hunlisted hmatches) (by decide)

/-- `sh1add x1, x1, x2` is executed, but unknown to the auditor. -/
theorem sh1add_unknown :
    Implements 0x2020a0b3#32 ∧ (classifyInstruction 0x2020a0b3#32).1 = .unknown ∧
      ¬ AuditExact 0x2020a0b3#32 := by
  have himplements : Implements 0x2020a0b3#32 :=
    (implements_iff _).mpr
      ⟨.bit .sh1add, Encoding.Matches.reg (by decide) (by decide) (by decide)⟩
  have hunknown : (classifyInstruction 0x2020a0b3#32).1 = .unknown := by decide
  refine ⟨himplements, hunknown, fun hexact => ?_⟩
  have hsupported := hexact.1.mpr himplements
  rw [hunknown] at hsupported
  rcases hsupported with h | h | h <;> cases h

end Objdump
end Jyd
