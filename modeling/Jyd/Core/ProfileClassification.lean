import Jyd.Core.ArithmeticDecode
import Jyd.Nemu.ProfileDecode

/-!
# ProfileClassification — the profiler's reading of a word and the core's

The simulator's profiler names the bit manipulation of a word and says which of its operands may
take a late load.  Here the two are compared with what IDU and the execution units do with the
same word.
-/

namespace Jyd
namespace Core

open Hdl Isa

/-! ## The operation a unit selects -/

namespace BExtensionUnit

/-- The instruction that a request is worked off as. -/
def selectedOp (q : BExtensionInput) : BOp :=
  match decodedOp q with
  | .clz => .clz
  | .ctz => .ctz
  | .cpop => .cpop
  | .clmul => .clmul
  | .clmulh => .clmulh
  | .orcB => .orcB
  | .xperm4 => .xperm4
  | .ror => if q.isImm then .rori else .ror
  | .pack => .pack

theorem selectedOp_eq {q : BExtensionInput} {op : BOp} (hop : unitOf (.bit op) = .bExtension)
    (h : Asks q op.encoding) : selectedOp q = op := by
  have himm := h.isImm
  obtain ⟨e, he⟩ : ∃ e, operation op = some e := by
    cases op <;> simp [unitOf] at hop <;> exact ⟨_, rfl⟩
  rw [selectedOp, decodedOp_eq op he h]
  cases op <;> simp [operation] at he <;> subst he <;>
    simp_all [BOp.encoding, Encoding.reg, Encoding.shift]

end BExtensionUnit

namespace SpecialExecutionCluster

/-- The instruction whose result the multiplexer of the cluster selects. -/
def selectedOp (i : ALUInput) : Option BOp :=
  if isReg i 0b0010000#7 0b010#3 then some .sh1add
  else if isReg i 0b0010000#7 0b100#3 then some .sh2add
  else if isReg i 0b0010000#7 0b110#3 then some .sh3add
  else if isImmSel i 0b0110000#7 0b001#3 4#5 then some .sextB
  else if isImmSel i 0b0110000#7 0b001#3 5#5 then some .sextH
  else if isReg i 0b0000101#7 0b101#3 then some .minu
  else if isEither i 0b0100100#7 0b101#3 then some (if i.is_imm then .bexti else .bext)
  else if isEither i 0b0010100#7 0b001#3 then some (if i.is_imm then .bseti else .bset)
  else if isEither i 0b0100100#7 0b001#3 then some (if i.is_imm then .bclri else .bclr)
  else if isEither i 0b0110100#7 0b001#3 then some (if i.is_imm then .binvi else .binv)
  else if isReg i 0b0100000#7 0b111#3 then some .andn
  else if isReg i 0b0100000#7 0b110#3 then some .orn
  else if isReg i 0b0100000#7 0b100#3 then some .xnor
  else if isReg i 0b0000101#7 0b110#3 then some .max
  else if isReg i 0b0000101#7 0b111#3 then some .maxu
  else if isReg i 0b0000101#7 0b100#3 then some .min
  else if isReg i 0b0110000#7 0b001#3 then some .rol
  else if isImmSel i 0b0110100#7 0b101#3 24#5 then some .rev8
  else none

theorem selectedOp_eq {op : BOp} (hop : unitOf (.bit op) = .specialCluster) {i : ALUInput}
    (h : Asks i op.encoding) : selectedOp i = some op := by
  rcases h with ⟨himm, hfunc3, hfunc7, hlow5⟩
  cases op <;> simp [unitOf] at hop <;>
    simp [BOp.encoding, Encoding.reg, Encoding.shift, Encoding.unary] at himm hfunc3 hfunc7 hlow5 <;>
    simp [selectedOp, isReg, isImmSel, isEither, himm, hfunc3, hfunc7, hlow5]

end SpecialExecutionCluster

/-! ## The operation a word is executed as -/

namespace IDU

/-- The request that EXU makes of a word, with the value of `rs2` in the register forms. -/
def request (code operand1 operand2 : Word) : ALUInput where
  is_imm := isFmtI code
  isSub := !isFmtI code && code.getLsbD 30
  func3t := func3 code
  func7t := func7 code
  bExtValid := isTyp code .arithmetic && !isMExtArithmetic code && isIterativeB code
  crcValid := isCrcU8Custom code
  xbmulValid := isBitExtractMulCustom code
  src1 := operand1
  src2 := if isFmtI code then immI code else operand2
  mulRawSrc1 := operand1
  mulRawSrc2 := if isFmtI code then immI code else operand2
  mulPrevData := 0
  mulPrevRs1 := false
  mulPrevRs2 := false
  mulNoLate := true

/-- The bit manipulation that a word is executed as, if IDU takes it for one. -/
def executedB (code : Word) : Option BOp :=
  if !isTyp code .arithmetic then none
  else if chooses code .bExtension then
    some (BExtensionUnit.selectedOp (SpecialExecutionCluster.bExtensionIn (request code 0 0)))
  else if chooses code .specialCluster then SpecialExecutionCluster.selectedOp (request code 0 0)
  else if isPack code then some .pack
  else none

variable {code : Word}

section Carried

variable {op : BOp} (h : Carries code op.encoding) (operand1 operand2 : Word)

include h

theorem request_low5 :
    ∀ s ∈ op.encoding.rs2, (request code operand1 operand2).src2.extractLsb' 0 5 = s := by
  intro s hs
  have himm : op.encoding.immediate = true := by
    cases op <;> first | rfl | exact nomatch hs
  have hfmt : isFmtI code = true := h.fmt.trans himm
  show (if isFmtI code then immI code else operand2).extractLsb' 0 5 = s
  rw [hfmt, if_pos rfl, immI_low5]
  exact h.low5 s hs

theorem asks_cluster :
    SpecialExecutionCluster.Asks (request code operand1 operand2) op.encoding :=
  ⟨h.fmt, h.func3, h.func7, request_low5 h operand1 operand2⟩

theorem asks_bExtension :
    BExtensionUnit.Asks (SpecialExecutionCluster.bExtensionIn (request code operand1 operand2))
      op.encoding :=
  ⟨h.fmt, h.func3, h.func7, request_low5 h operand1 operand2⟩

end Carried

theorem executedB_of_carries {op : BOp} (htyp : isTyp code .arithmetic = true)
    (h : Carries code op.encoding) : executedB code = some op := by
  have hchosen := chooses_bit htyp h
  rw [executedB, htyp]
  cases hu : unitOf (.bit op) with
  | bExtension =>
    rw [hu] at hchosen
    simp only [hchosen, if_true]
    exact congrArg some (BExtensionUnit.selectedOp_eq hu (asks_bExtension h 0 0))
  | specialCluster =>
    rw [hu] at hchosen
    -- the cluster and the iterative unit never claim the same word
    have hiterative : chooses code .bExtension = false := by
      simp only [chooses, Bool.and_eq_true, Bool.not_eq_true'] at hchosen
      simp [chooses, hchosen.1.2]
    simp only [hchosen, hiterative, if_true]
    exact SpecialExecutionCluster.selectedOp_eq hu (asks_cluster h 0 0)
  | fastInteger =>
    obtain rfl : op = .pack := by
      cases op <;> simp [unitOf] at hu
      rfl
    have hfmt : isFmtI code = false := h.fmt
    have hfunc3 : func3 code = 0b100#3 := h.func3
    have hfunc7 : func7 code = 0b0000100#7 := h.func7 _ rfl
    simp [chooses, isMExtArithmetic, isIterativeB, isShortB, isBCount, isBClmul, isBOrcB,
      isBXperm4, isBRor, isBShiftAdd, isBSext, isBMinu, isBBext, isBSet, isBClr, isBInv, isBAndn,
      isBOrn, isBXnor, isBMax, isBMaxu, isBMin, isBRol, isBRev8, isPack, isReg, isEither, isImmSel,
      hfmt, hfunc3, hfunc7]
  | multiplier => cases op <;> simp [unitOf] at hu
  | divider => cases op <;> simp [unitOf] at hu

theorem recognises_of_executedB {op : BOp} (h : executedB code = some op) :
    isTyp code .arithmetic = true ∧ recognisesB code = true := by
  rw [executedB] at h
  split_ifs at h with htyp hiterative hshort hpack
  all_goals refine ⟨by simpa using htyp, ?_⟩
  · simp only [chooses, Bool.and_eq_true] at hiterative
    simp [recognisesB, hiterative.2]
  · simp only [chooses, Bool.and_eq_true] at hshort
    simp [recognisesB, hshort.2]
  · simp [recognisesB, hpack]

/-- The words executed as an operation are the arithmetic ones with its function fields. -/
theorem executedB_eq_some_iff {op : BOp} :
    executedB code = some op ↔ isTyp code .arithmetic = true ∧ Carries code op.encoding := by
  constructor
  · intro h
    obtain ⟨htyp, hrecognised⟩ := recognises_of_executedB h
    obtain ⟨op', hcarries⟩ := exists_carries_of_recognisesB hrecognised
    obtain rfl : op' = op := Option.some.inj ((executedB_of_carries htyp hcarries).symm.trans h)
    exact ⟨htyp, hcarries⟩
  · rintro ⟨htyp, hcarries⟩
    exact executedB_of_carries htyp hcarries

end IDU

/-! ## The names of the profiler -/

open Nemu.Profile (bopOf isAddForm isOneImmediate lateLoadSourceEligible)

/-- The profiler has one name for the register and the immediate form of the single-bit
operations. -/
def profileName : BOp → Nemu.Profile.BOp
  | .clz => .clz
  | .ctz => .ctz
  | .cpop => .cpop
  | .clmul => .clmul
  | .clmulh => .clmulh
  | .orcB => .orcb
  | .xperm4 => .xperm4
  | .ror => .ror
  | .rori => .rori
  | .pack => .pack
  | .sh1add => .sh1add
  | .sh2add => .sh2add
  | .sh3add => .sh3add
  | .sextB => .sextb
  | .sextH => .sexth
  | .minu => .minu
  | .bext | .bexti => .bext
  | .bset | .bseti => .bset
  | .bclr | .bclri => .bclr
  | .binv | .binvi => .binv
  | .andn => .andn
  | .orn => .orn
  | .xnor => .xnor
  | .max => .max
  | .maxu => .maxu
  | .min => .min
  | .rol => .rol
  | .rev8 => .rev8

/-- What the profiler should call the word. -/
def executedName (code : Word) : Nemu.Profile.BOp :=
  ((IDU.executedB code).map profileName).getD .other

/-- What the profiler calls an instruction: it has `max` and `minu` the wrong way round. -/
def givenName : BOp → Nemu.Profile.BOp
  | .minu => .max
  | .max => .minu
  | op => profileName op

section Names

variable {x : Word}

theorem bopOf_of_matches {op : BOp} (h : op.encoding.Matches x) :
    bopOf x = givenName op := by
  rcases h with ⟨hop, h3, h7, h5⟩
  cases op <;>
    simp [BOp.encoding, Encoding.reg, Encoding.shift, Encoding.unary, Encoding.opcode] at hop h3 h7 h5 <;>
    simp [bopOf, hop, h3, h7, h5, givenName, profileName]

/-- `clmulr`, which the core does not have. -/
def clmulr : Encoding := .reg 0b0000101 0b010

theorem bopOf_of_clmulr (h : clmulr.Matches x) : bopOf x = .clmulr := by
  rcases h with ⟨hop, h3, h7, h5⟩
  simp [clmulr, Encoding.reg, Encoding.opcode] at hop h3 h7
  simp [bopOf, hop, h3, h7]

/-- Every word with a name is an instruction. -/
theorem bopOf_eq_other (hnone : ¬ ∃ op : BOp, op.encoding.Matches x) (hclmulr : ¬ clmulr.Matches x) :
    bopOf x = .other := by
  have hreg : ∀ (op : BOp) {f7 : BitVec 7} {f3 : BitVec 3}, op.encoding = .reg f7 f3 →
      ¬ (x.extractLsb' 0 7 = 0x33 ∧ x.extractLsb' 25 7 = f7 ∧ x.extractLsb' 12 3 = f3) :=
    fun op _ _ he h => hnone ⟨op, he ▸ .reg h.1 h.2.1 h.2.2⟩
  have hshift : ∀ (op : BOp) {f7 : BitVec 7} {f3 : BitVec 3}, op.encoding = .shift f7 f3 →
      ¬ (x.extractLsb' 0 7 = 0x13 ∧ x.extractLsb' 25 7 = f7 ∧ x.extractLsb' 12 3 = f3) :=
    fun op _ _ he h => hnone ⟨op, he ▸ .shift h.1 h.2.1 h.2.2⟩
  have hboth : ∀ (a b : BOp) {f7 : BitVec 7} {f3 : BitVec 3}, a.encoding = .reg f7 f3 →
      b.encoding = .shift f7 f3 → ¬ ((x.extractLsb' 0 7 = 0x33 ∨ x.extractLsb' 0 7 = 0x13) ∧
        x.extractLsb' 25 7 = f7 ∧ x.extractLsb' 12 3 = f3) :=
    fun a b _ _ ha hb h => h.1.elim (fun ho => hreg a ha ⟨ho, h.2⟩) fun ho => hshift b hb ⟨ho, h.2⟩
  have hunary : ∀ (op : BOp) {f7 : BitVec 7} {f3 : BitVec 3} {sel : BitVec 5},
      op.encoding = .unary f7 f3 sel → ¬ (x.extractLsb' 0 7 = 0x13 ∧ x.extractLsb' 12 3 = f3 ∧
        x.extractLsb' 25 7 = f7 ∧ x.extractLsb' 20 5 = sel) :=
    fun op _ _ _ he h => hnone ⟨op, he ▸ .unary h.1 h.2.2.1 h.2.1 h.2.2.2⟩
  -- the conditions in the order of the source, each for the instruction it stands for
  rw [bopOf, if_neg (hunary .clz rfl), if_neg (hunary .ctz rfl), if_neg (hunary .cpop rfl),
    if_neg (hunary .sextB rfl), if_neg (hunary .sextH rfl), if_neg (hreg .clmul rfl),
    if_neg fun h => hclmulr (.reg h.1 h.2.1 h.2.2), if_neg (hreg .clmulh rfl),
    if_neg (hunary .orcB rfl), if_neg (hunary .rev8 rfl), if_neg (hreg .xnor rfl),
    if_neg (hreg .orn rfl), if_neg (hreg .andn rfl), if_neg (hreg .min rfl),
    if_neg (hreg .minu rfl), if_neg (hreg .max rfl), if_neg (hreg .maxu rfl),
    if_neg (hreg .sh1add rfl), if_neg (hreg .sh2add rfl), if_neg (hreg .sh3add rfl),
    if_neg (hboth .bset .bseti rfl rfl), if_neg (hboth .bclr .bclri rfl rfl),
    if_neg (hboth .binv .binvi rfl rfl), if_neg (hboth .bext .bexti rfl rfl),
    if_neg (hreg .xperm4 rfl), if_neg (hreg .rol rfl), if_neg (hreg .ror rfl),
    if_neg (hshift .rori rfl), if_neg (hreg .pack rfl)]

theorem executedB_of_matches {op : BOp} (h : op.encoding.Matches x) : IDU.executedB x = some op :=
  IDU.executedB_of_carries (IDU.fields_of_matches h).typ (IDU.fields_of_matches h).carries

theorem opcode_of_matches {e : Encoding} (h : e.Matches x) :
    IDU.opcode x = 0b0010011#7 ∨ IDU.opcode x = 0b0110011#7 := by
  have hop : IDU.opcode x = e.opcode := h.opcode
  rw [hop, Encoding.opcode]
  cases e.immediate <;> simp

/-- A word with a name is in one of the two opcodes. -/
theorem bopOf_of_opcode (h : ¬ (IDU.opcode x = 0b0010011#7 ∨ IDU.opcode x = 0b0110011#7)) :
    bopOf x = .other := by
  refine bopOf_eq_other ?_ fun hclmulr => h (Or.inr hclmulr.opcode)
  rintro ⟨op, hmatches⟩
  exact h (opcode_of_matches hmatches)

/-- The words that the profiler and the core see as different bit manipulations. -/
inductive NamesDiffer (x : Word) : Prop
  | swapped (h : IDU.executedB x = some .max ∨ IDU.executedB x = some .minu)
  | otherOpcode {op : BOp} (h : IDU.executedB x = some op)
      (hop : ¬ (IDU.opcode x = 0b0010011#7 ∨ IDU.opcode x = 0b0110011#7))
  | missing (h : clmulr.Matches x)

theorem profileName_ne_other (op : BOp) : profileName op ≠ .other := by
  cases op <;> decide

theorem givenName_eq_iff (op : BOp) : givenName op = profileName op ↔ op ≠ .max ∧ op ≠ .minu := by
  cases op <;> decide

theorem bopOf_eq_iff_of_matches {op : BOp} (hmatches : op.encoding.Matches x) :
    bopOf x = executedName x ↔ ¬ NamesDiffer x := by
  have hexec := executedB_of_matches hmatches
  have hname : executedName x = profileName op := by rw [executedName, hexec]; rfl
  rw [hname, bopOf_of_matches hmatches, givenName_eq_iff]
  constructor
  · rintro ⟨hmax, hminu⟩ (hswapped | ⟨-, hother⟩ | hclmulr)
    · rw [hexec, Option.some.injEq, Option.some.injEq] at hswapped
      exact hswapped.elim hmax hminu
    · exact hother (opcode_of_matches hmatches)
    -- no instruction of the core has the name `clmulr`
    · have hgiven : givenName op = .clmulr :=
        (bopOf_of_matches hmatches).symm.trans (bopOf_of_clmulr hclmulr)
      cases op <;> cases hgiven
  · intro hsame
    constructor
    · rintro rfl
      exact hsame (.swapped (Or.inl hexec))
    · rintro rfl
      exact hsame (.swapped (Or.inr hexec))

theorem bopOf_eq_iff_of_none (hexec : IDU.executedB x = none) :
    bopOf x = executedName x ↔ ¬ NamesDiffer x := by
  have hname : executedName x = .other := by rw [executedName, hexec]; rfl
  rw [hname]
  constructor
  · rintro hother (hswapped | ⟨hsome, -⟩ | hclmulr)
    · rw [hexec] at hswapped
      rcases hswapped with h | h <;> cases h
    · rw [hexec] at hsome
      cases hsome
    · rw [bopOf_of_clmulr hclmulr] at hother
      cases hother
  · intro hsame
    refine bopOf_eq_other ?_ fun hclmulr => hsame (.missing hclmulr)
    rintro ⟨op, hmatches⟩
    rw [executedB_of_matches hmatches] at hexec
    cases hexec

theorem bopOf_eq_iff (x : Word) : bopOf x = executedName x ↔ ¬ NamesDiffer x := by
  cases hexec : IDU.executedB x with
  | none => exact bopOf_eq_iff_of_none hexec
  | some op =>
    by_cases hop : IDU.opcode x = 0b0010011#7 ∨ IDU.opcode x = 0b0110011#7
    · exact bopOf_eq_iff_of_matches ((IDU.executedB_eq_some_iff.mp hexec).2.matches hop)
    · -- the core looks at five bits of the opcode only, the profiler at all seven
      have hname : executedName x = profileName op := by rw [executedName, hexec]; rfl
      rw [hname, bopOf_of_opcode hop]
      exact iff_of_false (profileName_ne_other op).symm (not_not.mpr (.otherOpcode hexec hop))

end Names

/-! ## Late loads -/

/-- The operands that IDU lets wait for a load: one bit for each source. -/
def lateLoadAllowed (x : Word) (sourceMask : BitVec 2) : Bool :=
  (!sourceMask.getLsbD 0 || IDU.allowLateLoadRs1 x) &&
    (!sourceMask.getLsbD 1 || IDU.isEqualityBranch x)

/-- The words whose late-load operands the profiler and the core see differently. -/
inductive LateLoadsDiffer (x : Word) : Prop
  | equalityBranch (h : IDU.isEqualityBranch x = true)
  | add (h : isAddForm x = true)
  | otherOpcode (h : IDU.isLateLoadAndi1 x = true ∨ IDU.isLateLoadSrli1 x = true)
      (hop : IDU.opcode x ≠ 0b0010011#7)

section LateLoads

variable {x : Word}

theorem opImm_typ (h : IDU.opcode x = 0b0010011#7) :
    IDU.isTyp x .arithmetic = true ∧ IDU.isFmtI x = true := by
  rw [IDU.isTyp, IDU.isFmtI, IDU.isFmt, IDU.metaInfo_of_opcode x h]
  exact ⟨rfl, rfl⟩

/-- The profiler asks for all seven bits of the opcode where IDU asks for its class. -/
theorem isOneImmediate_eq (f3 : BitVec 3) :
    isOneImmediate x f3 = (IDU.opcode x == 0b0010011#7 && (IDU.isTyp x .arithmetic &&
      IDU.isFmtI x && IDU.func3 x == f3 && x.extractLsb' 20 12 == 1#12)) := by
  by_cases h : IDU.opcode x = 0b0010011#7
  · obtain ⟨htyp, hfmt⟩ := opImm_typ h
    rw [htyp, hfmt, Bool.true_and, Bool.true_and, ← Bool.and_assoc]
    rfl
  · have hop : (IDU.opcode x == 0b0010011#7) = false := beq_eq_false_iff_ne.mpr h
    rw [hop, Bool.false_and, isOneImmediate]
    show (IDU.opcode x == 0b0010011#7 && _ && _) = false
    rw [hop, Bool.false_and, Bool.false_and]

theorem not_equalityBranch_of_add (h : isAddForm x = true) : IDU.isEqualityBranch x = false := by
  simp only [isAddForm, Bool.and_eq_true, Bool.or_eq_true, beq_iff_eq] at h
  have hmeta : (IDU.metaInfo x).typ = .arithmetic := by
    rcases h.2 with ho | ⟨ho, -⟩ <;> rw [IDU.metaInfo_of_opcode x ho] <;> rfl
  simp [IDU.isEqualityBranch, IDU.isTyp, hmeta]

theorem not_oneImmediate_of_add (h : isAddForm x = true) :
    IDU.isLateLoadAndi1 x = false ∧ IDU.isLateLoadSrli1 x = false := by
  simp only [isAddForm, Bool.and_eq_true, beq_iff_eq] at h
  have hfunc3 : IDU.func3 x = 0#3 := h.1
  simp [IDU.isLateLoadAndi1, IDU.isLateLoadSrli1, hfunc3]

/-- The two predicates agree when they agree on each source. -/
theorem eligible_eq_iff :
    (∀ sourceMask, lateLoadSourceEligible x sourceMask = lateLoadAllowed x sourceMask) ↔
      (isAddForm x || isOneImmediate x 7 || isOneImmediate x 5) = IDU.allowLateLoadRs1 x ∧
      (isAddForm x && x.extractLsb' 0 7 == 0x33#7) = IDU.isEqualityBranch x := by
  constructor
  · intro h
    exact ⟨by simpa [lateLoadSourceEligible, lateLoadAllowed] using h 1#2,
      by simpa [lateLoadSourceEligible, lateLoadAllowed] using h 2#2⟩
  · rintro ⟨h1, h2⟩ sourceMask
    simp only [lateLoadSourceEligible, lateLoadAllowed, h1, h2]

theorem lateLoads_agree_iff (x : Word) :
    (∀ sourceMask, lateLoadSourceEligible x sourceMask = lateLoadAllowed x sourceMask) ↔
      ¬ LateLoadsDiffer x := by
  have handi : isOneImmediate x 7 = (IDU.opcode x == 0b0010011#7 && IDU.isLateLoadAndi1 x) :=
    isOneImmediate_eq 7
  have hsrli : isOneImmediate x 5 = (IDU.opcode x == 0b0010011#7 && IDU.isLateLoadSrli1 x) :=
    isOneImmediate_eq 5
  rw [eligible_eq_iff, IDU.allowLateLoadRs1, handi, hsrli]
  cases hadd : isAddForm x with
  | true =>
    -- IDU never lets an addition wait
    obtain ⟨handi1, hsrli1⟩ := not_oneImmediate_of_add hadd
    rw [handi1, hsrli1, not_equalityBranch_of_add hadd]
    exact iff_of_false (by simp) (not_not.mpr (.add hadd))
  | false =>
    cases hbranch : IDU.isEqualityBranch x with
    | true => exact iff_of_false (by simp) (not_not.mpr (.equalityBranch hbranch))
    | false =>
      -- what is left are `andi` and `srli` by one, which differ in the opcode only
      simp only [Bool.false_or, Bool.false_and, Bool.or_false, and_true]
      constructor
      · rintro hone (h | h | ⟨h, hop⟩)
        · rw [hbranch] at h; cases h
        · rw [hadd] at h; cases h
        · rw [beq_eq_false_iff_ne.mpr hop] at hone
          rcases h with h | h <;> simp [h] at hone
      · intro hsame
        by_cases hop : IDU.opcode x = 0b0010011#7
        · rw [hop]
          simp
        · have hnone : ¬ (IDU.isLateLoadAndi1 x = true ∨ IDU.isLateLoadSrli1 x = true) :=
            fun h => hsame (.otherOpcode h hop)
          simp only [not_or, Bool.not_eq_true] at hnone
          rw [hnone.1, hnone.2]
          simp

end LateLoads

/-! ## The comparison -/

/-- The profiler reads a word as the core does: it names the bit manipulation that is executed,
and it lets the same source registers take a late load. -/
structure ClassifiedAlike (x : Word) : Prop where
  bop : bopOf x = executedName x
  lateLoad : ∀ sourceMask, lateLoadSourceEligible x sourceMask = lateLoadAllowed x sourceMask

theorem classifiedAlike_iff (x : Word) : ClassifiedAlike x ↔ ¬ (NamesDiffer x ∨ LateLoadsDiffer x) := by
  rw [not_or, ← bopOf_eq_iff, ← lateLoads_agree_iff]
  exact ⟨fun h => ⟨h.bop, h.lateLoad⟩, fun h => ⟨h.1, h.2⟩⟩

/-- `max x1, x1, x2` is counted as `minu`. -/
theorem max_named_minu :
    IDU.executedB 0x0a20e0b3#32 = some .max ∧ bopOf 0x0a20e0b3#32 = .minu ∧
      ¬ ClassifiedAlike 0x0a20e0b3#32 := by
  have hmatches : BOp.max.encoding.Matches 0x0a20e0b3#32 := .reg (by decide) (by decide) (by decide)
  have hname : bopOf 0x0a20e0b3#32 = .minu := bopOf_of_matches hmatches
  refine ⟨executedB_of_matches hmatches, hname, fun h => ?_⟩
  have hexecuted := h.bop
  rw [hname, executedName, executedB_of_matches hmatches] at hexecuted
  cases hexecuted

end Core
end Jyd
