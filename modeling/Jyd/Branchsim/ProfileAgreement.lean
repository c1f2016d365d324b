import Jyd.Branchsim.RtlModel
import Jyd.Hdl.BitField
import Jyd.Nemu.Profile

/-!
# ProfileAgreement — the profiler and the branch simulator count the same misses

The profiler keeps one type in each entry where the simulator keeps two flags, and it
looks at the executed pcs where the simulator recomputes whether a branch was taken.
Entry by entry the two tables say the same, and both update only after predicting.
-/

namespace Jyd
namespace Branchsim

open Hdl Nemu

/-! ## The profiler over a branch trace -/

/-- The executed instruction behind a record of a branch trace. -/
def Record.decode (r : Record) : Profile.Decode := ⟨r.pc, r.pc + 4, r.nxtPc, r.code⟩

def profiler (skipConflictingNotTaken : Bool) : Transducer Record Bool Profile.Btb32 where
  init := fun _ => Profile.BtbEnt.zero
  step := fun b r => some (Profile.riscvProfileRecord skipConflictingNotTaken b r.decode)

/-- Conditional branch, `JAL` or `JALR`. -/
def IsControl (r : Record) : Prop :=
  Profile.kindOf r.code = .branch ∨ Profile.kindOf r.code = .jal ∨ Profile.kindOf r.code = .jalr

instance (r : Record) : Decidable (IsControl r) := inferInstanceAs (Decidable (_ ∨ _))

/-- Thirty-two entries, no index remapping and no direction table. -/
def rtl32 (policy : RtlAllocationPolicy) : RtlModelConfig := ⟨32, policy, [], 0, 0⟩

/-! ## Immediates -/

/-- Sign extension by borrow and by arithmetic shift. -/
theorem signExtend_eq_shift {x : Word} (hx : ∀ n, 12 < n → x.getLsbD n = false) :
    signExtend x 13 = (x <<< 19).sshiftRight 19 := by
  apply BitVec.eq_of_getLsbD_eq
  intro n hn
  have hborrow : (signExtend x 13).getLsbD n = if n < 12 then x.getLsbD n else x.getLsbD 12 :=
    getLsbD_flip_sub (by decide) hx n hn
  rw [hborrow, BitVec.getLsbD_sshiftRight]
  simp only [BitVec.getLsbD_shiftLeft, BitVec.msb_eq_getLsbD_last]
  grind

theorem getBImm_eq (x : Word) : getBImm x = Profile.branchImm x := by
  have htop : (x >>> 31) &&& 1#32 = x >>> 31 := by
    apply BitVec.eq_of_getLsbD_eq
    intro n hn
    simp only [BitVec.getLsbD_and, BitVec.getLsbD_ushiftRight]
    rcases n with _ | n
    · simp
    · simp [BitVec.getLsbD_of_ge x (31 + (n + 1)) (by omega)]
  simp only [getBImm, Profile.branchImm, htop]
  apply signExtend_eq_shift
  intro n hn
  -- no field reaches beyond the sign bit
  have htopbit : x.getLsbD (31 + (n - 12)) = false := BitVec.getLsbD_of_ge x _ (by omega)
  simp only [BitVec.getLsbD_or, BitVec.getLsbD_shiftLeft, BitVec.getLsbD_ushiftRight, htopbit,
    getLsbD_mask (k := 1) _ 1#32 (by decide), getLsbD_mask (k := 6) _ 0x3f#32 (by decide),
    getLsbD_mask (k := 4) _ 0xf#32 (by decide)]
  grind

/-! ## Kinds -/

/-- How the simulator names a control transfer of the profiler. -/
structure KindAgrees (code : Word) (kind : ControlKind) : Prop where
  control : getControlKind code = some kind
  branch : (kind == .branch) = (Profile.kindOf code == .branch)
  jal : (kind == .jal || kind == .ret) = (Profile.kindOf code == .jal || code == 0x00008067#32)

theorem opcode_of_kind {x : Word} (h : Profile.kindOf x = .branch ∨ Profile.kindOf x = .jal ∨
    Profile.kindOf x = .jalr) :
    (x &&& 0x7f#32 = 0x63#32 ∧ Profile.kindOf x = .branch) ∨
      (x &&& 0x7f#32 = 0x6f#32 ∧ Profile.kindOf x = .jal) ∨
      (x &&& 0x7f#32 = 0x67#32 ∧ Profile.kindOf x = .jalr) := by
  by_cases h1 : x &&& 0x7f#32 = 0x63#32
  · exact Or.inl ⟨h1, by simp [Profile.kindOf, h1]⟩
  · by_cases h2 : x &&& 0x7f#32 = 0x6f#32
    · exact Or.inr (Or.inl ⟨h2, by simp [Profile.kindOf, h2]⟩)
    · by_cases h3 : x &&& 0x7f#32 = 0x67#32
      · exact Or.inr (Or.inr ⟨h3, by simp [Profile.kindOf, h3]⟩)
      · exfalso
        revert h
        simp only [Profile.kindOf, h1, h2, h3, if_false]
        split_ifs <;> simp

theorem exists_kind {r : Record} (h : IsControl r) : ∃ kind, KindAgrees r.code kind := by
  rcases opcode_of_kind h with ⟨hop, hk⟩ | ⟨hop, hk⟩ | ⟨hop, hk⟩
  -- only `jalr x0, 0(x1)` counts as a return, and its opcode is not that of a branch
  · have hret : (r.code == 0x00008067#32) = false := beq_false_of_ne fun hc => by
      rw [hc] at hop
      exact absurd hop (by decide)
    refine ⟨.branch, ?_, ?_, ?_⟩
    · simp [getControlKind, isConditionalBranch, hop]
    · rw [hk]
      rfl
    · rw [hk, hret]
      rfl
  · refine ⟨.jal, ?_, ?_, ?_⟩
    · simp [getControlKind, isConditionalBranch, isJal, hop]
    · rw [hk]
      rfl
    · rw [hk]
      rfl
  · cases hret : r.code == 0x00008067#32 with
    | true =>
      refine ⟨.ret, ?_, ?_, ?_⟩
      · simp [getControlKind, isConditionalBranch, isJal, isExactRet, hop, hret]
      · rw [hk]
        rfl
      · rw [hret, Bool.or_true]
        rfl
    | false =>
      refine ⟨.jalr, ?_, ?_, ?_⟩
      · simp [getControlKind, isConditionalBranch, isJal, isJalr, isExactRet, hop, hret]
      · rw [hk]
        rfl
      · rw [hk, hret]
        rfl

/-- A record of kind `branch` has a direct target. -/
theorem conditional_of_branch {code : Word} (h : getControlKind code = some .branch) :
    isConditionalBranch code = true := by
  by_contra hno
  simp only [getControlKind, hno, if_false] at h
  split_ifs at h <;> simp at h

/-! ## Entries -/

structure Matches (e : Profile.BtbEnt) (f : RtlBTBEntry) : Prop where
  pc : f.pc = e.tag
  target : f.target = e.target
  directionCounter : f.directionCounter = e.counter
  valid : f.valid = e.valid
  isJal : f.isJal = (e.type == .jal)
  isBranch : f.isBranch = (e.type == .branch)

def Related (b : Profile.Btb32) (r : RtlModelRunner) : Prop :=
  ∀ k : BitVec 5, Matches (b k) (r.entries k.toNat)

theorem getIndex_eq (policy : RtlAllocationPolicy) (pc : Word) :
    RtlModelRunner.getIndex (rtl32 policy) pc = (Profile.index pc).toNat := by
  have hmask : ∀ n : ℕ, n &&& 31 = n % 32 := fun n => Nat.and_two_pow_sub_one_eq_mod n 5
  simp [RtlModelRunner.getIndex, rtl32, Profile.index, hmask, BitVec.extractLsb'_toNat]

section Step

variable {b : Profile.Btb32} {r : RtlModelRunner}

theorem Related.oldEntry (h : Related b r) (policy : RtlAllocationPolicy) (record : Record) :
    Matches (b (Profile.index record.pc)) (RtlModelRunner.oldEntry (rtl32 policy) r record) := by
  rw [RtlModelRunner.oldEntry, getIndex_eq]
  exact h _

theorem Related.hit (h : Related b r) (policy : RtlAllocationPolicy) (record : Record) :
    RtlModelRunner.hit (rtl32 policy) r record = Profile.hit b record.pc := by
  have he := h.oldEntry policy record
  rw [RtlModelRunner.hit, Profile.hit, he.valid, he.pc]

theorem Related.wrong (h : Related b r) (policy : RtlAllocationPolicy) (record : Record) :
    RtlModelRunner.wrong (rtl32 policy) r record =
      (Profile.predictedPc b record.pc != record.nxtPc) := by
  have he := h.oldEntry policy record
  have hdir : RtlModelRunner.branchDirection (rtl32 policy) r record =
      decide (2 ≤ (b (Profile.index record.pc)).counter) := by
    rw [← he.directionCounter]
    rfl
  have htaken : RtlModelRunner.predictedTaken (rtl32 policy) r record =
      Profile.predictedTaken b record.pc := by
    rw [RtlModelRunner.predictedTaken, Profile.predictedTaken, h.hit, he.isJal, he.isBranch, hdir]
  rw [RtlModelRunner.wrong, RtlModelRunner.predictedPc, Profile.predictedPc, htaken, he.target]

variable {policy : RtlAllocationPolicy} {record : Record} {kind : ControlKind}

theorem Related.matchingBranch (h : Related b r) (hk : KindAgrees record.code kind) :
    RtlModelRunner.matchingBranch (rtl32 policy) r record kind =
      Profile.matchingBranch b record.pc (Profile.kindOf record.code) := by
  have he := h.oldEntry policy record
  rw [RtlModelRunner.matchingBranch, Profile.matchingBranch, h.hit, he.isBranch, hk.branch]

/-- The simulator recomputes for a branch what the profiler reads off. -/
theorem actualTaken_of_branch (hb : kind = .branch) :
    RtlModelRunner.actualTaken record kind = (record.nxtPc != record.pc + 4) := by
  simp [RtlModelRunner.actualTaken, hb]

theorem KindAgrees.branch_iff (hk : KindAgrees record.code kind) :
    kind = .branch ↔ Profile.kindOf record.code = .branch := by
  have h := hk.branch
  rw [Bool.eq_iff_iff, beq_iff_eq, beq_iff_eq] at h
  exact h

theorem Related.nextDirection (h : Related b r) (hk : KindAgrees record.code kind) :
    RtlModelRunner.nextDirection (rtl32 policy) r record kind =
      Profile.nextDirection b record.pc (Profile.kindOf record.code)
        (record.nxtPc != record.pc + 4) := by
  have he := h.oldEntry policy record
  by_cases hb : kind = .branch
  · have hb' := hk.branch_iff.mp hb
    simp only [RtlModelRunner.nextDirection, Profile.nextDirection, hb', h.matchingBranch hk,
      actualTaken_of_branch hb, he.directionCounter, if_pos hb, if_true]
  · have hb' : ¬ Profile.kindOf record.code = .branch := fun hx => hb (hk.branch_iff.mpr hx)
    simp only [RtlModelRunner.nextDirection, Profile.nextDirection, if_neg hb, if_neg hb']

theorem storedTarget_eq (hk : KindAgrees record.code kind) :
    RtlModelRunner.storedTarget record kind =
      if Profile.kindOf record.code == .branch then record.pc + Profile.branchImm record.code
      else record.nxtPc := by
  by_cases hb : kind = .branch
  · have hcond := conditional_of_branch (hb ▸ hk.control)
    rw [RtlModelRunner.storedTarget, if_pos hb, if_pos (beq_iff_eq.mpr (hk.branch_iff.mp hb)),
      ← getBImm_eq]
    simp [decodeBranch, hcond]
  · have hb' : ¬ (Profile.kindOf record.code == .branch) = true := fun hx =>
      hb (hk.branch_iff.mpr (beq_iff_eq.mp hx))
    rw [RtlModelRunner.storedTarget, if_neg hb, if_neg hb']

/-- The entries the two programs write. -/
theorem Related.nextEntry (h : Related b r) (hk : KindAgrees record.code kind) :
    Matches
      (Profile.storedEntry b record.pc record.nxtPc record.code (Profile.kindOf record.code)
        (record.nxtPc != record.pc + 4))
      (RtlModelRunner.nextEntry (rtl32 policy) r record kind) := by
  refine ⟨rfl, storedTarget_eq hk, h.nextDirection hk, rfl, ?_, ?_⟩
  · show (kind == .jal || kind == .ret) = _
    rw [hk.jal, Profile.storedEntry]
    cases hj : (Profile.kindOf record.code == .jal || record.code == 0x00008067#32) with
    | true => rfl
    | false => exact (Bool.or_eq_false_iff.mp hj).1.symm
  · show (kind == .branch) = _
    rw [Profile.storedEntry]
    cases hj : (Profile.kindOf record.code == .jal || record.code == 0x00008067#32) with
    | true =>
      -- a jump or a return is no branch
      rw [← hk.jal] at hj
      cases kind <;> simp_all
    | false => exact hk.branch

/-- One table of the profiler moves as one policy of the simulator. -/
def policyOf (skipConflictingNotTaken : Bool) : RtlAllocationPolicy :=
  if skipConflictingNotTaken then .skipConflictingNotTaken else .always

theorem skipAllocation_eq (h : Related b r) (hk : KindAgrees record.code kind) (skip : Bool) :
    RtlModelRunner.skipAllocation (rtl32 (policyOf skip)) r record kind =
      Profile.skips b record.pc (Profile.kindOf record.code) (record.nxtPc != record.pc + 4)
        skip := by
  have hpolicy : ((rtl32 (policyOf skip)).allocationPolicy != .always) = skip ∧
      ((rtl32 (policyOf skip)).allocationPolicy == .protectJalFromBranches) = false ∧
      ((rtl32 (policyOf skip)).allocationPolicy == .secondChanceJal) = false := by
    cases skip <;> exact ⟨rfl, rfl, rfl⟩
  rw [RtlModelRunner.skipAllocation, RtlModelRunner.skipConflictingNotTaken,
    RtlModelRunner.protectJal, RtlModelRunner.giveJalSecondChance, hpolicy.1, hpolicy.2.1,
    hpolicy.2.2, h.matchingBranch hk, hk.branch, Profile.skips]
  cases hb : (Profile.kindOf record.code == .branch) with
  | false => simp
  | true =>
    rw [actualTaken_of_branch (hk.branch_iff.mpr (beq_iff_eq.mp hb))]
    simp

theorem update_related (h : Related b r) (pc : Word) {e : Profile.BtbEnt} {f : RtlBTBEntry}
    (he : Matches e f) (k : BitVec 5) :
    Matches (Function.update b (Profile.index pc) e k)
      (Function.update r.entries (Profile.index pc).toNat f k.toNat) := by
  by_cases hk : k = Profile.index pc
  · subst hk
    simpa using he
  · have hk' : k.toNat ≠ (Profile.index pc).toNat := fun hx => hk (BitVec.eq_of_toNat_eq hx)
    simpa [hk, hk'] using h k

theorem directTargetValid_of_branch (hk : KindAgrees record.code kind) (hb : kind = .branch) :
    (decodeBranch record.pc record.code).directTargetValid = true := by
  have hcond := conditional_of_branch (hb ▸ hk.control)
  simp [decodeBranch, hcond]

/-- No assertion fails on a control transfer, and the entries move as the policy says. -/
theorem process_entries (hk : KindAgrees record.code kind) (config : RtlModelConfig) :
    ∃ r', RtlModelRunner.process config r record = some r' ∧
      r'.entries = RtlModelRunner.nextEntries config r record kind := by
  have hassert : (!RtlModelRunner.skipAllocation config r record kind && kind == .branch &&
      !(decodeBranch record.pc record.code).directTargetValid) = false := by
    by_cases hb : kind = .branch
    · simp [directTargetValid_of_branch hk hb]
    · simp [beq_false_of_ne hb]
  rw [RtlModelRunner.process, hk.control]
  simp only [Option.bind_eq_bind, Option.bind_some, hassert, Bool.false_eq_true, if_false]
  exact ⟨_, rfl, rfl⟩

/-- The table of the profiler and the entries of the simulator after one record. -/
theorem Related.next (h : Related b r) (hk : KindAgrees record.code kind) (skip : Bool)
    {r' : RtlModelRunner}
    (hr' : r'.entries = RtlModelRunner.nextEntries (rtl32 (policyOf skip)) r record kind) :
    Related (Profile.riscvProfileRecord skip b record.decode).2 r' := by
  intro k
  rw [hr', RtlModelRunner.nextEntries, Profile.riscvProfileRecord, Profile.modelRtlBtb32_table,
    skipAllocation_eq h hk skip]
  show Matches ((if Profile.skips b record.pc (Profile.kindOf record.code)
    (record.nxtPc != record.pc + 4) skip then b else _) k) _
  split
  · -- neither table is written: no policy here gives a jump a second chance
    have hsecond : RtlModelRunner.giveJalSecondChance (rtl32 (policyOf skip)) r record kind =
        false := by
      cases skip <;> rfl
    rw [hsecond]
    exact h k
  · rw [getIndex_eq]
    exact update_related h record.pc (h.nextEntry hk) k

theorem simulation (skip : Bool) :
    Transducer.Simulation (profiler skip) (RtlModelRunner.runner (rtl32 (policyOf skip))) IsControl
      Related where
  init := fun _ => ⟨rfl, rfl, rfl, rfl, rfl, rfl⟩
  step := by
    intro b r record hrecord h
    obtain ⟨kind, hk⟩ := exists_kind hrecord
    obtain ⟨r', hprocess, hentries⟩ := process_entries (r := r) hk (rtl32 (policyOf skip))
    have hanswer : (Profile.riscvProfileRecord skip b record.decode).1 =
        RtlModelRunner.wrong (rtl32 (policyOf skip)) r record := by
      rw [h.wrong, Profile.riscvProfileRecord, Profile.modelRtlBtb32_wrong]
      rfl
    refine ⟨(Profile.riscvProfileRecord skip b record.decode).1,
      (Profile.riscvProfileRecord skip b record.decode).2, r', rfl, ?_, h.next hk skip hentries⟩
    simp [RtlModelRunner.runner, hprocess, hanswer]

end Step

/-! ## Agreement -/

/-- On every trace of control transfers the profiler's tables and the simulator's runners
mispredict the same records. -/
theorem mispredicted_eq (trace : List Record) (h : ∀ r ∈ trace, IsControl r) :
    (∃ flags, (profiler false).run trace = some flags ∧
      (RtlModelRunner.runner (rtl32 .always)).run trace = some flags ∧
      flags.length = trace.length) ∧
    ∃ flags, (profiler true).run trace = some flags ∧
      (RtlModelRunner.runner (rtl32 .skipConflictingNotTaken)).run trace = some flags ∧
      flags.length = trace.length :=
  ⟨(simulation false).run h, (simulation true).run h⟩

/-- A loop branch, a conflicting branch that is not taken, and the loop branch again. -/
def aliasedLoop : List Record :=
  [⟨0x80000000, 0xfe000ee3, 0x7ffffffc⟩, ⟨0x80000080, 0x00000463, 0x80000084⟩,
    ⟨0x80000000, 0xfe000ee3, 0x7ffffffc⟩]

theorem mispredicted_eq_aliasedLoop :
    (profiler false).run aliasedLoop = some [true, false, true] ∧
      (profiler true).run aliasedLoop = some [true, false, false] ∧
      (∃ flags, (profiler true).run aliasedLoop = some flags ∧
        (RtlModelRunner.runner (rtl32 .skipConflictingNotTaken)).run aliasedLoop = some flags ∧
        flags.length = aliasedLoop.length) :=
  ⟨by decide +kernel, by decide +kernel, (mispredicted_eq aliasedLoop (by decide +kernel)).2⟩

end Branchsim
end Jyd
