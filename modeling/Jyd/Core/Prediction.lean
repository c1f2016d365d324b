import Jyd.Core.BranchPredictor
import Jyd.Core.ExuControlFlow

/-!
# Prediction — the front end predicts from a constant program

The BTB tag and index together are the whole trimmed pc, so an entry is about one
instruction of the program.  Entries therefore never predict a jump for anything
but the control instruction that trained them, and never a wrong target for it;
only the direction of a branch and the target of a return can be mispredicted.
-/

namespace Jyd
namespace Core

open Hdl TrimmedPC

/-- The instruction at every trimmed pc. -/
abbrev Program := BitVec 15 → Word

/-! ## Consistent predictions -/

/-- The target of the direct jump or branch at `a`. -/
def directTarget (prog : Program) (a : BitVec 15) : BitVec 15 :=
  trim (expand a + IDU.imm (prog a))

/-- A trained target belongs to a conditional branch or to the list-reversal loop at `a`. -/
def BranchTarget (prog : Program) (a target : BitVec 15) : Prop :=
  (IDU.isTyp (prog a) .branch = true ∧ target = directTarget prog a) ∨
    (IDU.isListReverseLoopEncoding (prog a) = true ∧ target = a)

def JalTarget (prog : Program) (a target : BitVec 15) : Prop :=
  IDU.isTyp (prog a) .jal = true ∧ target = directTarget prog a

/-- A prediction for the instruction at `a` that decode and execute can check. -/
structure PredOk (prog : Program) (a : BitVec 15) (p : PredBundle) : Prop where
  not_taken : p.take = false → trim p.pc = a + 1
  miss : p.hit = false → p.take = false
  hit : p.hit = true →
    ((∃ target, BranchTarget prog a target ∧ (p.take = true → trim p.pc = target)) ∨
      (p.take = true ∧ JalTarget prog a (trim p.pc)) ∨
      (p.take = true ∧ IDU.isPredictableReturn (prog a) = true))

/-- A redirected fetch is predicted to fall through. -/
theorem predOk_fallThrough (prog : Program) (a : BitVec 15) :
    PredOk prog a { hit := false, take := false, pc := expand a + 4 } where
  not_taken := fun _ => by rw [trim_add_four, trim_expand]
  miss := fun _ => rfl
  hit := fun h => absurd h Bool.false_ne_true

/-! ## Branch target buffer -/

namespace BTB

def EntryOk (prog : Program) (index : BitVec 9) (e : BTBEntry) : Prop :=
  match e.entryType with
  | .invalid => True
  | .branch => BranchTarget prog (e.tag ++ index) e.target
  | .jal => JalTarget prog (e.tag ++ index) e.target
  | .ret => IDU.isPredictableReturn (prog (e.tag ++ index)) = true

/-- Entries below the initialisation counter are cleared; afterwards all are consistent. -/
structure Ok (prog : Program) (r : Regs) : Prop where
  entries : ∀ k, r.initDone = true ∨ k < r.initCount → EntryOk prog k (r.queryMem k)
  pending : r.initDone = true → r.updateEnReg = true →
    EntryOk prog r.updateIndexReg r.nextEntryReg

/-- What an update must say about the instruction it trains. -/
structure UpdateOk (prog : Program) (u : Update) : Prop where
  branch : u.isBranch = true → BranchTarget prog (trim u.addr) (trim u.target)
  ret : u.isBranch = false → u.isReturn = true → IDU.isPredictableReturn (prog (trim u.addr)) = true
  jal : u.isBranch = false → u.isReturn = false → u.isJAL = true →
    JalTarget prog (trim u.addr) (trim u.target)

theorem tag_append_index (addr : Word) : extractTag addr ++ extractIndex addr = trim addr := by
  apply BitVec.eq_of_getLsbD_eq
  intro n hn
  simp only [extractTag, extractIndex, trim, BitVec.getLsbD_append, BitVec.getLsbD_extractLsb', hn,
    decide_true, Bool.true_and]
  split
  · simp [*]
  · have h6 : n - 9 < 6 := by omega
    have hsum : 11 + (n - 9) = 2 + n := by omega
    simp [h6, hsum]

variable {prog : Program} {r : Regs} {u : Update}

theorem nextEntry_ok (hu : UpdateOk prog u) : EntryOk prog (extractIndex u.addr) (nextEntry r u) := by
  cases hb : u.isBranch with
  | true => simpa [EntryOk, nextEntry, hb, tag_append_index] using hu.branch hb
  | false =>
    cases hret : u.isReturn with
    | true => simpa [EntryOk, nextEntry, hb, hret, tag_append_index] using hu.ret hb hret
    | false =>
      cases hj : u.isJAL with
      | true => simpa [EntryOk, nextEntry, hb, hret, hj, tag_append_index] using hu.jal hb hret hj
      | false => simp [EntryOk, nextEntry, hb, hret, hj]

/-- `P` holds of every entry initialised so far and of the one on its way to the memories. -/
structure Filled (P : BitVec 9 → BTBEntry → BTBUpdateState → Prop) (r : Regs) : Prop where
  entries : ∀ k, r.initDone = true ∨ k < r.initCount → P k (r.queryMem k) (r.updateStateMem k)
  pending : r.initDone = true → r.updateEnReg = true →
    P r.updateIndexReg r.nextEntryReg r.nextUpdateStateReg

/-- An index that the next initialisation write does not reach was written before. -/
theorem lt_initCount (hdone : r.initDone = false) {k : BitVec 9}
    (hk : (next r u).initDone = true ∨ k < (next r u).initCount) (hc : k ≠ r.initCount) :
    k < r.initCount := by
  have hne : k.toNat ≠ r.initCount.toNat := fun he => hc (BitVec.eq_of_toNat_eq he)
  have hmax := r.initCount.isLt
  simp only [next, hdone, Bool.false_or, beq_iff_eq, Bool.false_eq_true, if_false] at hk
  rcases hk with hlast | hk
  · -- the counter stands at the last index
    have hlast' : r.initCount.toNat = 511 := by rw [hlast]; rfl
    have hkmax := k.isLt
    exact BitVec.lt_def.mpr (by omega)
  · have hlt := BitVec.lt_def.mp hk
    simp only [BitVec.toNat_add, BitVec.ofNat_eq_ofNat, BitVec.toNat_ofNat] at hlt
    exact BitVec.lt_def.mpr (by omega)

theorem Filled.next {P : BitVec 9 → BTBEntry → BTBUpdateState → Prop} (h : Filled P r)
    (hzero : ∀ k, P k BTBEntry.zero BTBUpdateState.zero)
    (hu : updateEn r u = true → P (extractIndex u.addr) (nextEntry r u) (nextUpdateState r u)) :
    Filled P (next r u) := by
  cases hdone : r.initDone with
  | true =>
    constructor
    · intro k _
      cases hen : r.updateEnReg with
      | false => simpa [BTB.next, hdone, hen] using h.entries k (Or.inl hdone)
      | true =>
        by_cases hk : k = r.updateIndexReg
        · subst hk
          simpa [BTB.next, hdone, hen] using h.pending hdone hen
        · simpa [BTB.next, hdone, hen, hk] using h.entries k (Or.inl hdone)
    · intro _ hen
      exact hu hen
  | false =>
    constructor
    · intro k hk
      by_cases hc : k = r.initCount
      · simpa [BTB.next, hdone, hc] using hzero r.initCount
      · simpa [BTB.next, hdone, hc] using h.entries k (Or.inr (lt_initCount hdone hk hc))
    · intro _ hen
      simp [BTB.next, updateEn, hdone] at hen

theorem ok_iff_filled : Ok prog r ↔ Filled (fun k e _ => EntryOk prog k e) r :=
  ⟨fun h => ⟨h.entries, h.pending⟩, fun h => ⟨h.entries, h.pending⟩⟩

theorem ok_next (h : Ok prog r) (hu : u.en = true → UpdateOk prog u) : Ok prog (next r u) := by
  refine ok_iff_filled.mpr ((ok_iff_filled.mp h).next (fun _ => trivial) ?_)
  intro hen
  simp only [updateEn, Bool.and_eq_true] at hen
  exact nextEntry_ok (hu hen.1.1.1)

end BTB

/-! ## Branch predictor -/

namespace BranchPredictor

variable {prog : Program} {r : Regs} {b : BTB.Regs}

theorem trim_fetchWindow (x : BitVec 20) : trim (0x80#8 ++ 0#2 ++ x ++ 0#2) = x.setWidth 15 := by
  apply BitVec.eq_of_getLsbD_eq
  intro n hn
  have h2 : ¬ 2 + n < 2 := by omega
  have h20 : n < 20 := by omega
  have hsub : 2 + n - 2 = n := by omega
  simp only [trim, BitVec.getLsbD_append, BitVec.getLsbD_extractLsb', BitVec.getLsbD_setWidth, hn,
    h2, h20, hsub, decide_true, Bool.true_and, if_true, if_false]

theorem fetchWindow_expand (a : BitVec 15) : (expand a).extractLsb' 2 20 = a.setWidth 20 := by
  apply BitVec.eq_of_toNat_eq
  have ha := a.isLt
  have hval : (expand a).toNat = 0x80000000 + 4 * a.toNat := expand_toNat a
  simp only [BitVec.extractLsb'_toNat, BitVec.toNat_setWidth, Nat.shiftRight_eq_div_pow, hval]
  omega

theorem pred_not_taken {a : BitVec 15} {q : BTB.Query} (h : take r q = false) :
    trim (pred r (expand a) q).pc = a + 1 := by
  simp only [pred, h, Bool.false_eq_true, if_false, trim_fetchWindow, fetchWindow_expand]
  apply BitVec.eq_of_toNat_eq
  simp

theorem pred_taken {a target : BitVec 15} {q : BTB.Query} (hras : useRas r q = false)
    (htake : take r q = true) (ht : q.target = expand target) :
    trim (pred r (expand a) q).pc = target := by
  simp only [pred, htake, hras, if_true, Bool.false_eq_true, if_false, ht, trim_fetchWindow,
    fetchWindow_expand]
  simp

theorem take_of_jal {q : BTB.Query} (hhit : q.hit = true) (hjal : q.isJAL = true) :
    take r q = true := by
  simp [take, hhit, hjal]

/-- Every prediction made from a consistent buffer can be checked. -/
theorem predOk (h : BTB.Ok prog b) (a : BitVec 15) :
    PredOk prog a (pred r (expand a) (BTB.query b (expand a))) := by
  have hpc : ∀ q, (pred r (expand a) q).take = take r q := fun _ => rfl
  refine ⟨?_, ?_, ?_⟩
  · intro htake
    exact pred_not_taken htake
  · intro hmiss
    have hmiss' : (BTB.query b (expand a)).hit = false := hmiss
    simp [hpc, take, useRas, hmiss']
  · intro hhit
    have hhit' : (BTB.query b (expand a)).hit = true := hhit
    have hentry : b.initDone = true ∧
        (b.queryMem (BTB.extractIndex (expand a))).entryType ≠ .invalid ∧
        (b.queryMem (BTB.extractIndex (expand a))).tag = BTB.extractTag (expand a) := by
      simpa [BTB.query] using hhit'
    rcases hentry with ⟨hdone, htype, htag⟩
    -- a hit means that tag and index spell the queried pc
    have hok := h.entries (BTB.extractIndex (expand a)) (Or.inl hdone)
    have haddr : (b.queryMem (BTB.extractIndex (expand a))).tag ++
        BTB.extractIndex (expand a) = a := by
      rw [htag, BTB.tag_append_index, trim_expand]
    rw [BTB.EntryOk, haddr] at hok
    cases ht : (b.queryMem (BTB.extractIndex (expand a))).entryType with
    | invalid => exact absurd ht htype
    | branch =>
      rw [ht] at hok
      refine Or.inl ⟨_, hok, ?_⟩
      intro htake
      exact pred_taken (by simp [useRas, BTB.query, ht]) htake rfl
    | jal =>
      rw [ht] at hok
      have htake : take r (BTB.query b (expand a)) = true :=
        take_of_jal hhit' (by simp [BTB.query, ht])
      refine Or.inr (Or.inl ⟨htake, ?_⟩)
      rw [pred_taken (by simp [useRas, BTB.query, ht]) htake rfl]
      exact hok
    | ret =>
      rw [ht] at hok
      exact Or.inr (Or.inr ⟨take_of_jal hhit' (by simp [BTB.query, ht]), hok⟩)

end BranchPredictor

/-! ## Decode -/

namespace IDU

variable {prog : Program} {j : In}

/-- Branches and the list-reversal loop are no jumps. -/
theorem branchTarget_not_jump {a target : BitVec 15} (h : BranchTarget prog a target) :
    ¬ (isTyp (prog a) .jal = true ∨ isTyp (prog a) .jalr = true) := by
  rcases h with ⟨hbr, _⟩ | ⟨hloop, _⟩
  · have ht : (metaInfo (prog a)).typ = .branch := by simpa [isTyp] using hbr
    simp [isTyp, ht]
  · have hop := (opcode_of_listReverse _ (listReverseLoop_listReverse _ hloop)).1
    simp [isTyp, metaInfo_custom0 _ hop]

theorem addAddrImm_zero (base : Word) : addAddrImm base 0#12 = base.extractLsb' 0 22 := by
  have hsext : ((0#12).signExtend 16).setWidth 17 = 0#17 := by decide
  have hcarry : ((base.extractLsb' 0 16).setWidth 17).getLsbD 16 = false := by
    simp
  simp only [addAddrImm, hsext, BitVec.add_zero, hcarry, Bool.and_false, Bool.false_eq_true,
    if_false]
  apply BitVec.eq_of_getLsbD_eq
  intro n hn
  simp only [BitVec.getLsbD_append, BitVec.getLsbD_extractLsb', BitVec.getLsbD_setWidth]
  grind

/-- A zero offset leaves the program-counter bits of the base alone. -/
theorem trim_addAddrImm_zero (base : Word) :
    trim (0x80#8 ++ 0#2 ++ addAddrImm base 0#12) = trim base := by
  rw [addAddrImm_zero]
  apply BitVec.eq_of_getLsbD_eq
  intro n hn
  simp only [trim, BitVec.getLsbD_append, BitVec.getLsbD_extractLsb']
  grind

theorem addrImm12_return (h : isPredictableReturn (inst j) = true) : addrImm12 (inst j) = 0#12 := by
  have hcode : inst j = 0x00008067#32 := by simpa [isPredictableReturn] using h
  rw [hcode]
  decide

/-- A return that is not redirected had its target compared with the register itself. -/
theorem trim_return_target (h : isPredictableReturn (inst j) = true) (hhit : j.bits.pred.hit = true)
    (hkeep : notBranchPredWrong j = false) :
    trim (EXU.reg1AddImm (outBits j)) = trim j.bits.pred.pc := by
  have hwrong : returnTargetPredWrong j = false := by
    simp only [notBranchPredWrong, Bool.or_eq_false_iff] at hkeep
    exact hkeep.2
  have hcheck : returnProducerPending j = false ∧ trim j.rdata1 = trim j.bits.pred.pc := by
    simpa [returnTargetPredWrong, h, hhit] using hwrong
  have hlsu : addressLsuReady j = false := by
    have hno : conflict (rs1 (inst j)) j.lsu.addr j.lsu.enWr = false := by
      have hpend := hcheck.1
      simp only [returnProducerPending, Bool.or_eq_false_iff] at hpend
      exact hpend.2
    simp [addressLsuReady, addressLsuConflict, hno]
  have hbase : addressBase j = j.rdata1 := by
    simp [addressBase, hlsu]
  rw [← hcheck.2, ← trim_addAddrImm_zero j.rdata1, ← hbase, ← addrImm12_return h]
  rfl

/-- Decode keeps a checked prediction or withdraws it. -/
theorem predictedNext_outBits (hpc : j.bits.pc = expand (trim j.bits.pc))
    (hcode : j.bits.code = prog (trim j.bits.pc)) (hp : PredOk prog (trim j.bits.pc) j.bits.pred)
    (hkeep : notBranchPredWrong j = false) :
    EXU.predictedNext (outBits j) = trim j.bits.pred.pc := by
  have hfall : j.bits.pred.take = false → trim j.bits.pred.pc = trim j.bits.pc + 1 := hp.not_taken
  have hdirect : trim (pcAddImm j) = directTarget prog (trim j.bits.pc) := by
    rw [pcAddImm, inst, hpc, directTarget, trim_expand, hcode]
  have hloop : EXU.isListReverseLoop (outBits j) = isListReverseLoopEncoding (inst j) :=
    Decoded.listReverseLoop_eq ⟨j, rfl⟩
  have hnotJal : isTyp (inst j) .jal = true → j.bits.pred.hit = true := by
    intro hjal
    simp only [notBranchPredWrong, hjal, Bool.true_and, Bool.or_eq_false_iff] at hkeep
    simpa using hkeep.1.1.2
  have hnotJalr : isTyp (inst j) .jalr = true →
      isPredictableReturn (inst j) = true ∧ j.bits.pred.hit = true := by
    intro hjalr
    simp only [notBranchPredWrong, hjalr, Bool.true_and, Bool.or_eq_false_iff] at hkeep
    simpa using hkeep.1.2
  cases htake : j.bits.pred.take with
  | false =>
    -- an untaken prediction is never given to a jump
    have hjal : isTyp (inst j) .jal = false := Bool.eq_false_iff.mpr fun hk => by
      rcases hp.hit (hnotJal hk) with ⟨_, hbr, _⟩ | ⟨ht, _⟩ | ⟨ht, _⟩
      · exact branchTarget_not_jump hbr (hcode ▸ Or.inl hk)
      · simp [htake] at ht
      · simp [htake] at ht
    have hjalr : isTyp (inst j) .jalr = false := Bool.eq_false_iff.mpr fun hk => by
      rcases hp.hit (hnotJalr hk).2 with ⟨_, hbr, _⟩ | ⟨ht, _⟩ | ⟨ht, _⟩
      · exact branchTarget_not_jump hbr (hcode ▸ Or.inr hk)
      · simp [htake] at ht
      · simp [htake] at ht
    have hj : EXU.isTypJAL (outBits j) = false ∧ EXU.isTypJALR (outBits j) = false :=
      ⟨hjal, hjalr⟩
    have hp' : (outBits j).predTake = false := htake
    rw [hfall htake]
    simp only [EXU.predictedNext, hp', hj.1, hj.2, Bool.false_eq_true, if_false]
    split
    · rfl
    · split <;> rfl
  | true =>
    have hhit : j.bits.pred.hit = true := by
      by_contra hmiss
      simp [hp.miss (by simpa using hmiss)] at htake
    have hp' : (outBits j).predTake = true := htake
    rcases hp.hit hhit with ⟨target, hbr, htarget⟩ | ⟨_, hjal⟩ | ⟨_, hret⟩
    · rw [htarget htake]
      rcases hbr with ⟨htyp, ht⟩ | ⟨hl, ht⟩
      · rw [← hcode] at htyp
        have hbranch : EXU.isTypBranch (outBits j) = true := htyp
        have hno : EXU.isListReverseLoop (outBits j) = false :=
          EXU.not_listReverseLoop ⟨j, rfl⟩ (EXU.not_arithmetic_of_branch hbranch)
        simp only [EXU.predictedNext, hno, hbranch, hp', if_true, Bool.false_eq_true, if_false, ht]
        exact hdirect
      · have hl' : EXU.isListReverseLoop (outBits j) = true := by
          rw [hloop, inst, hcode]
          exact hl
        simp only [EXU.predictedNext, hl', hp', if_true, ht]
        rfl
    · have hjal' : EXU.isTypJAL (outBits j) = true := by
        have h := hjal.1
        rw [← hcode] at h
        exact h
      have htyp : (outBits j).info.typ = .jal := by simpa [EXU.isTypJAL] using hjal'
      have hno : EXU.isListReverseLoop (outBits j) = false :=
        EXU.not_listReverseLoop ⟨j, rfl⟩ (by simp [EXU.isTypArithmetic, htyp])
      have hbranch : EXU.isTypBranch (outBits j) = false := by simp [EXU.isTypBranch, htyp]
      simp only [EXU.predictedNext, hno, hbranch, hjal', if_true, Bool.false_eq_true, if_false,
        hjal.2]
      exact hdirect
    · rw [← hcode] at hret
      have hret' : isPredictableReturn (inst j) = true := hret
      have htyp : (outBits j).info.typ = .jalr :=
        congrArg InstMetaInfo.typ (metaInfo_return _ hret')
      have hno : EXU.isListReverseLoop (outBits j) = false :=
        EXU.not_listReverseLoop ⟨j, rfl⟩ (by simp [EXU.isTypArithmetic, htyp])
      have htyps : EXU.isTypBranch (outBits j) = false ∧ EXU.isTypJAL (outBits j) = false ∧
          EXU.isTypJALR (outBits j) = true := by
        simp [EXU.isTypBranch, EXU.isTypJAL, EXU.isTypJALR, htyp]
      simp only [EXU.predictedNext, hno, htyps.1, htyps.2.1, htyps.2.2, if_true,
        Bool.false_eq_true, if_false]
      exact trim_return_target hret' hhit hkeep

end IDU

/-! ## Training -/

namespace EXU

variable {prog : Program} {r : Regs} {i : In}

/-- What an instruction leaving EXU teaches the buffer is true of the program. -/
theorem branchUpdate_ok (hd : Decoded i.dinst) (hpc : i.dinst.pc = expand (trim i.dinst.pc))
    (hcode : i.dinst.code = prog (trim i.dinst.pc)) (en taken : Bool) :
    BTB.UpdateOk prog
      { en := en
        addr := i.dinst.pc
        isJAL := isJAL i
        isBranch := isBranch r i
        isReturn := isReturn i
        actualTaken := taken
        target := branchTarget r i } := by
  have hdirect : trim i.dinst.info.pcAddImm = directTarget prog (trim i.dinst.pc) := by
    rw [hd.pcAddImm_eq, directTarget, ← hpc, ← hcode]
  have htyp : ∀ t, IDU.isTyp (prog (trim i.dinst.pc)) t = (i.dinst.info.typ == t) := by
    intro t
    rw [← hcode, IDU.isTyp, ← hd.metaInfo_eq]
  refine ⟨?_, ?_, ?_⟩
  · intro hb
    -- a branch entry comes from a branch or from the list loop, which targets itself
    cases hloop : listReverseLoopBranch r i with
    | true =>
      have hk : isListReverseLoop i.dinst = true := by
        simp only [listReverseLoopBranch, Bool.and_eq_true] at hloop
        exact hloop.1
      refine Or.inr ⟨?_, ?_⟩
      · rw [← hcode, ← hd.listReverseLoop_eq]
        exact hk
      · simp [branchTarget, controlFlowTarget, hloop, hk]
    | false =>
      have hbr : isTypBranch i.dinst = true := by
        simpa [isBranch, hloop] using hb
      have ht : i.dinst.info.typ = .branch := by simpa [isTypBranch] using hbr
      have hk := not_listReverseLoop hd (not_arithmetic_of_branch hbr)
      refine Or.inl ⟨(htyp _).trans hbr, ?_⟩
      rw [← hdirect]
      simp [branchTarget, controlFlowTarget, hbr, hk, isTypJALR, ht]
  · intro _ hret
    rw [← hcode]
    simp only [isReturn, Bool.and_eq_true] at hret
    exact hret.2
  · intro hnb hnr hjal
    -- `isJAL` also covers returns; those have an entry type of their own
    have hj : isTypJAL i.dinst = true := by
      by_contra hno
      have hcode' : isReturnCode i.dinst = true := by
        simpa [isJAL, hno] using hjal
      have hm := IDU.metaInfo_return _ (show IDU.isPredictableReturn i.dinst.code = true from hcode')
      have hjalr : isTypJALR i.dinst = true := by
        rw [isTypJALR, hd.metaInfo_eq, hm]
        rfl
      simp [isReturn, hjalr, hcode'] at hnr
    have ht : i.dinst.info.typ = .jal := by simpa [isTypJAL] using hj
    have hk : isListReverseLoop i.dinst = false :=
      not_listReverseLoop hd (by simp [isTypArithmetic, ht])
    refine ⟨(htyp _).trans hj, ?_⟩
    rw [← hdirect]
    simp [branchTarget, controlFlowTarget, hj, hk, isTypJALR, ht]

end EXU

end Core
end Jyd
