import Jyd.Graph.Worklist
import Jyd.Sdb.Ftrace

/-!
# DirectCfg — the direct control-flow graph of a disassembly

`direct_cfg_reachable` of the objdump auditor follows the instructions of a listing from its
entries.  Addresses and words are Python integers; an encoding may have other lengths than
four bytes, and a target may lie anywhere.
-/

namespace Jyd
namespace Objdump

open Hdl

/-! ## The auditor -/

structure Instruction where
  address : ℤ
  word : ℕ
  size : ℕ
  deriving DecidableEq, Repr

def signExtend (value width : ℕ) : ℤ :=
  let sign := 1 <<< (width - 1)
  (value ^^^ sign : ℕ) - (sign : ℕ)

def opcode (inst : Instruction) : Option ℕ :=
  if inst.size = 4 then some (inst.word &&& 0x7f) else none

def directTarget (inst : Instruction) : Option ℤ :=
  let word := inst.word
  let opcode := word &&& 0x7f
  if inst.size ≠ 4 then none
  else if opcode = 0x6f then
    let immediate :=
      ((word >>> 31) &&& 0x1) <<< 20 ||| ((word >>> 12) &&& 0xff) <<< 12 |||
        ((word >>> 20) &&& 0x1) <<< 11 ||| ((word >>> 21) &&& 0x3ff) <<< 1
    some (inst.address + signExtend immediate 21)
  else if opcode = 0x63 then
    let immediate :=
      ((word >>> 31) &&& 0x1) <<< 12 ||| ((word >>> 7) &&& 0x1) <<< 11 |||
        ((word >>> 25) &&& 0x3f) <<< 5 ||| ((word >>> 8) &&& 0xf) <<< 1
    some (inst.address + signExtend immediate 13)
  else none

/-- What an iteration pushes for the instruction, in this order. -/
def pushed (inst : Instruction) : List ℤ :=
  let nextAddress := inst.address + inst.size
  if opcode inst = some 0x63 then (directTarget inst).toList ++ [nextAddress]
  else if opcode inst = some 0x6f then
    (directTarget inst).toList ++ (if (inst.word >>> 7) &&& 0x1f ≠ 0 then [nextAddress] else [])
  else if opcode inst = some 0x67 then
    if (inst.word >>> 7) &&& 0x1f ≠ 0 then [nextAddress] else []
  else if opcode inst = some 0x73 ∧ inst.word = 0x30200073 then []
  else [nextAddress]

/-- A dictionary built in listing order keeps the last instruction of an address. -/
def byAddress (instructions : List Instruction) (address : ℤ) : Option Instruction :=
  instructions.reverse.find? fun inst => inst.address = address

def listing (instructions : List Instruction) (address : ℤ) : Option (List ℤ) :=
  (byAddress instructions address).map pushed

/-- The loop, with a bound on its iterations. -/
def directCfgReachable (fuel : ℕ) (instructions : List Instruction) (entries : List ℤ) :
    Option (Finset ℤ) :=
  (Graph.Worklist.start entries).run (listing instructions) fuel

/-! ## The static successor relation -/

namespace Instruction

/-- The word as an RV32 instruction. -/
def code (inst : Instruction) : Word := BitVec.ofNat 32 inst.word

def HasOpcode (inst : Instruction) (op : BitVec 7) : Prop :=
  inst.size = 4 ∧ inst.code.extractLsb' 0 7 = op

/-- It keeps the address behind it in a register. -/
def Links (inst : Instruction) : Prop := inst.code.extractLsb' 7 5 ≠ 0#5

def IsMret (inst : Instruction) : Prop := inst.size = 4 ∧ inst.word = 0x30200073

end Instruction

/-- The 13-bit offset of a conditional branch. -/
def branchOffset (code : Word) : BitVec 13 :=
  code.extractLsb' 31 1 ++ code.extractLsb' 7 1 ++ code.extractLsb' 25 6 ++
    code.extractLsb' 8 4 ++ 0#1

/-- Where control may go from an instruction, without looking at register contents. -/
inductive StaticSucc (inst : Instruction) : ℤ → Prop
  | branchTaken (h : inst.HasOpcode 0b1100011) :
      StaticSucc inst (inst.address + (branchOffset inst.code).toInt)
  | branchNotTaken (h : inst.HasOpcode 0b1100011) : StaticSucc inst (inst.address + inst.size)
  | jumpTarget (h : inst.HasOpcode 0b1101111) :
      StaticSucc inst (inst.address + (Sdb.jalOffset inst.code).toInt)
  | callReturns (h : inst.HasOpcode 0b1101111 ∨ inst.HasOpcode 0b1100111) (hlink : inst.Links) :
      StaticSucc inst (inst.address + inst.size)
  | ordinary (hbranch : ¬ inst.HasOpcode 0b1100011) (hjal : ¬ inst.HasOpcode 0b1101111)
      (hjalr : ¬ inst.HasOpcode 0b1100111) (hmret : ¬ inst.IsMret) :
      StaticSucc inst (inst.address + inst.size)

/-- The listed addresses that control can get to from the entries. -/
inductive StaticReachable (instructions : List Instruction) (entries : List ℤ) : ℤ → Prop
  | entry {a : ℤ} (hentry : a ∈ entries) (hlisted : ∃ inst ∈ instructions, inst.address = a) :
      StaticReachable instructions entries a
  | step {a b : ℤ} {inst : Instruction} (hpath : StaticReachable instructions entries a)
      (hinst : byAddress instructions a = some inst) (hsucc : StaticSucc inst b)
      (hlisted : ∃ inst ∈ instructions, inst.address = b) :
      StaticReachable instructions entries b

/-! ## Fields of a word -/

theorem field_eq (word : ℕ) {start len mask : ℕ} (h : start + len ≤ 32) (hmask : mask = 2 ^ len - 1) :
    (word >>> start) &&& mask = ((BitVec.ofNat 32 word).extractLsb' start len).toNat := by
  rw [hmask, Nat.and_two_pow_sub_one_eq_mod, BitVec.extractLsb'_toNat, BitVec.toNat_ofNat]
  apply Nat.eq_of_testBit_eq
  intro k
  simp only [Nat.testBit_mod_two_pow, Nat.testBit_shiftRight]
  by_cases hk : k < len
  · simp [hk, show start + k < 32 by omega]
  · simp [hk]

theorem xor_two_pow_of_lt {b k : ℕ} (hb : b < 2 ^ k) : b ^^^ 2 ^ k = 2 ^ k + b := by
  have hor : 2 ^ k + b = 2 ^ k ||| b := by simpa using Nat.two_pow_add_eq_or_of_lt hb 1
  rw [hor]
  apply Nat.eq_of_testBit_eq
  intro j
  rw [Nat.testBit_xor, Nat.testBit_or, Nat.testBit_two_pow]
  by_cases hj : k = j
  · subst hj
    simp [Nat.testBit_lt_two_pow hb]
  · simp [hj]

/-- The borrow of the auditor is the sign extension of the instruction set. -/
theorem signExtend_toNat {k : ℕ} (x : BitVec (k + 1)) :
    signExtend x.toNat (k + 1) = x.toInt := by
  have hlt := x.isLt
  have hpow : 2 ^ (k + 1) = 2 * 2 ^ k := by rw [Nat.pow_succ, Nat.mul_comm]
  simp only [signExtend, Nat.add_sub_cancel, Nat.one_shiftLeft]
  rw [BitVec.toInt_eq_toNat_cond]
  split
  · rename_i hpositive
    have hb : x.toNat < 2 ^ k := by omega
    rw [xor_two_pow_of_lt hb]
    omega
  · rename_i hnegative
    -- the sign bit is set, and flipping it twice is the identity
    obtain ⟨b, hb⟩ := Nat.exists_eq_add_of_le (show 2 ^ k ≤ x.toNat by omega)
    have hblt : b < 2 ^ k := by omega
    have hback : x.toNat ^^^ 2 ^ k = b := by
      rw [hb, ← xor_two_pow_of_lt hblt, Nat.xor_assoc, Nat.xor_self, Nat.xor_zero]
    rw [hback, hb]
    omega

section Decoded

variable {inst : Instruction}

theorem opcode_eq_some_iff {n : ℕ} {op : BitVec 7} (hn : op.toNat = n) :
    opcode inst = some n ↔ inst.HasOpcode op := by
  have hfield : inst.word &&& 0x7f = (inst.code.extractLsb' 0 7).toNat :=
    field_eq inst.word (by decide : 0 + 7 ≤ 32) rfl
  rw [opcode, Instruction.HasOpcode]
  split
  · rename_i hsize
    rw [Option.some_inj, hfield, ← hn, BitVec.toNat_inj]
    exact ⟨fun h => ⟨hsize, h⟩, fun h => h.2⟩
  · rename_i hsize
    constructor
    · intro h
      exact nomatch h
    · intro h
      exact absurd h.1 hsize

theorem opcode_branch_iff : opcode inst = some 0x63 ↔ inst.HasOpcode 0b1100011 :=
  opcode_eq_some_iff rfl

theorem opcode_jal_iff : opcode inst = some 0x6f ↔ inst.HasOpcode 0b1101111 :=
  opcode_eq_some_iff rfl

theorem opcode_jalr_iff : opcode inst = some 0x67 ↔ inst.HasOpcode 0b1100111 :=
  opcode_eq_some_iff rfl

theorem rd_ne_zero_iff : (inst.word >>> 7) &&& 0x1f ≠ 0 ↔ inst.Links := by
  have hfield : (inst.word >>> 7) &&& 0x1f = (inst.code.extractLsb' 7 5).toNat :=
    field_eq inst.word (by decide : 7 + 5 ≤ 32) rfl
  rw [hfield, Instruction.Links, ne_eq, ne_eq, ← BitVec.toNat_inj]
  rfl

theorem directTarget_branch (h : inst.HasOpcode 0b1100011) :
    directTarget inst = some (inst.address + (branchOffset inst.code).toInt) := by
  have hop : inst.word &&& 0x7f = 0x63 := by
    simpa [opcode, h.1] using (opcode_eq_some_iff rfl).mpr h
  have himm : ((inst.word >>> 31) &&& 0x1) <<< 12 ||| ((inst.word >>> 7) &&& 0x1) <<< 11 |||
      ((inst.word >>> 25) &&& 0x3f) <<< 5 ||| ((inst.word >>> 8) &&& 0xf) <<< 1 =
        (branchOffset inst.code).toNat := by
    rw [field_eq inst.word (by decide : 31 + 1 ≤ 32) (by decide : 0x1 = _),
      field_eq inst.word (by decide : 7 + 1 ≤ 32) (by decide : 0x1 = _),
      field_eq inst.word (by decide : 25 + 6 ≤ 32) (by decide : 0x3f = _),
      field_eq inst.word (by decide : 8 + 4 ≤ 32) (by decide : 0xf = _), branchOffset,
      Instruction.code]
    simp only [BitVec.toNat_append, Nat.shiftLeft_or_distrib, ← Nat.shiftLeft_add, BitVec.toNat_ofNat,
      Nat.zero_mod, Nat.or_zero]
  have hext : signExtend (branchOffset inst.code).toNat 13 = (branchOffset inst.code).toInt :=
    signExtend_toNat _
  simp only [directTarget, h.1, hop, himm, hext]
  rfl

theorem directTarget_jump (h : inst.HasOpcode 0b1101111) :
    directTarget inst = some (inst.address + (Sdb.jalOffset inst.code).toInt) := by
  have hop : inst.word &&& 0x7f = 0x6f := by
    simpa [opcode, h.1] using (opcode_eq_some_iff rfl).mpr h
  have himm : ((inst.word >>> 31) &&& 0x1) <<< 20 ||| ((inst.word >>> 12) &&& 0xff) <<< 12 |||
      ((inst.word >>> 20) &&& 0x1) <<< 11 ||| ((inst.word >>> 21) &&& 0x3ff) <<< 1 =
        (Sdb.jalOffset inst.code).toNat := by
    rw [field_eq inst.word (by decide : 31 + 1 ≤ 32) (by decide : 0x1 = _),
      field_eq inst.word (by decide : 12 + 8 ≤ 32) (by decide : 0xff = _),
      field_eq inst.word (by decide : 20 + 1 ≤ 32) (by decide : 0x1 = _),
      field_eq inst.word (by decide : 21 + 10 ≤ 32) (by decide : 0x3ff = _), Sdb.jalOffset,
      Instruction.code]
    simp only [BitVec.toNat_append, Nat.shiftLeft_or_distrib, ← Nat.shiftLeft_add, BitVec.toNat_ofNat,
      Nat.zero_mod, Nat.or_zero]
  have hext : signExtend (Sdb.jalOffset inst.code).toNat 21 = (Sdb.jalOffset inst.code).toInt :=
    signExtend_toNat _
  simp only [directTarget, h.1, hop, himm, hext]
  rfl

theorem mem_pushed_of_succ {a : ℤ} (h : StaticSucc inst a) : a ∈ pushed inst := by
  cases h with
  | branchTaken h => simp [pushed, opcode_branch_iff.mpr h, directTarget_branch h]
  | branchNotTaken h => simp [pushed, opcode_branch_iff.mpr h]
  | jumpTarget h => simp [pushed, opcode_jal_iff.mpr h, directTarget_jump h]
  | callReturns h hlink =>
    have hrd := rd_ne_zero_iff.mpr hlink
    rcases h with h | h
    · simp [pushed, opcode_jal_iff.mpr h, hrd]
    · simp [pushed, opcode_jalr_iff.mpr h, hrd]
  | ordinary hnb hnj hnr hmret =>
    have hno : ¬ (opcode inst = some 0x73 ∧ inst.word = 0x30200073) := by
      rintro ⟨hop, hword⟩
      have hsys : inst.HasOpcode 0b1110011 := (opcode_eq_some_iff rfl).mp hop
      exact hmret ⟨hsys.1, hword⟩
    rw [pushed, if_neg (opcode_branch_iff.not.mpr hnb), if_neg (opcode_jal_iff.not.mpr hnj),
      if_neg (opcode_jalr_iff.not.mpr hnr), if_neg hno]
    exact List.mem_singleton_self _

theorem succ_of_mem_pushed {a : ℤ} (h : a ∈ pushed inst) : StaticSucc inst a := by
  simp only [pushed] at h
  split at h
  · rename_i hop
    have hop := opcode_branch_iff.mp hop
    rw [directTarget_branch hop] at h
    rcases List.mem_pair.mp h with rfl | rfl
    · exact .branchTaken hop
    · exact .branchNotTaken hop
  split at h
  · rename_i hop
    have hop := opcode_jal_iff.mp hop
    rw [directTarget_jump hop] at h
    rcases List.mem_cons.mp h with rfl | h
    · exact .jumpTarget hop
    · split at h
      · rename_i hlink
        obtain rfl := List.mem_singleton.mp h
        exact .callReturns (Or.inl hop) (rd_ne_zero_iff.mp hlink)
      · exact absurd h List.not_mem_nil
  split at h
  · rename_i hop
    split at h
    · rename_i hlink
      obtain rfl := List.mem_singleton.mp h
      exact .callReturns (Or.inr (opcode_jalr_iff.mp hop)) (rd_ne_zero_iff.mp hlink)
    · exact absurd h List.not_mem_nil
  split at h
  -- nothing follows an `mret`
  · exact absurd h List.not_mem_nil
  · rename_i hnb hnj hnr hno
    obtain rfl := List.mem_singleton.mp h
    refine .ordinary (opcode_branch_iff.not.mp hnb) (opcode_jal_iff.not.mp hnj)
      (opcode_jalr_iff.not.mp hnr) ?_
    rintro ⟨hsize, hword⟩
    exact hno ⟨by simp [opcode, hsize, hword], hword⟩

/-- The auditor pushes the static successors. -/
theorem mem_pushed_iff {a : ℤ} : a ∈ pushed inst ↔ StaticSucc inst a :=
  ⟨succ_of_mem_pushed, mem_pushed_of_succ⟩

end Decoded

/-! ## The loop -/

section Listing

variable {instructions : List Instruction} {entries : List ℤ}

theorem length_pushed_le (inst : Instruction) : (pushed inst).length ≤ 2 := by
  have htarget : (directTarget inst).toList.length ≤ 1 := by
    cases directTarget inst <;> simp
  simp only [pushed]
  split_ifs <;> (simp; try omega)

theorem listed_iff {a : ℤ} :
    Graph.Listed (listing instructions) a ↔ ∃ inst ∈ instructions, inst.address = a := by
  rw [Graph.Listed, listing, Option.isSome_map, byAddress, List.find?_isSome]
  simp

theorem reachable_iff {a : ℤ} :
    Graph.Reachable (listing instructions) entries a ↔ StaticReachable instructions entries a := by
  constructor
  · intro h
    induction h with
    | entry hentry hlisted => exact .entry hentry (listed_iff.mp hlisted)
    | step _ hnext hmem hlisted ih =>
      rcases Option.map_eq_some_iff.mp hnext with ⟨inst, hinst, rfl⟩
      exact .step ih hinst (mem_pushed_iff.mp hmem) (listed_iff.mp hlisted)
  · intro h
    induction h with
    | entry hentry hlisted => exact .entry hentry (listed_iff.mpr hlisted)
    | step _ hinst hsucc hlisted ih =>
      have hnext : listing instructions _ = some _ := Option.map_eq_some_iff.mpr ⟨_, hinst, rfl⟩
      exact .step ih hnext (mem_pushed_iff.mpr hsucc) (listed_iff.mpr hlisted)

theorem degree_le (a : ℤ) : ((listing instructions a).getD []).length ≤ 2 := by
  rw [listing]
  cases byAddress instructions a with
  | none => simp
  | some inst => exact length_pushed_le inst

end Listing

/-- The loop ends after at most two iterations for every listed instruction and one for every
entry, and then has found exactly the listed addresses that control can get to. -/
theorem directCfgReachable_exact (instructions : List Instruction) (entries : List ℤ)
    (extra : ℕ) :
    ∃ reached,
      directCfgReachable (entries.length + 2 * instructions.length + 1 + extra) instructions
        entries = some reached ∧
      ∀ a, a ∈ reached ↔ StaticReachable instructions entries a := by
  have hnodes : ∀ a, Graph.Listed (listing instructions) a →
      a ∈ (instructions.map Instruction.address).toFinset := by
    intro a ha
    rcases listed_iff.mp ha with ⟨inst, hmem, rfl⟩
    exact List.mem_toFinset.mpr (List.mem_map_of_mem hmem)
  have hcard := List.toFinset_card_le (instructions.map Instruction.address)
  rw [List.length_map] at hcard
  have hwork := @Graph.Worklist.work_start_le _ _ (listing instructions) entries
    (instructions.map Instruction.address).toFinset 2 degree_le
  have hfuel : (Graph.Worklist.start entries).work (listing instructions)
      (instructions.map Instruction.address).toFinset <
        entries.length + 2 * instructions.length + 1 + extra := by omega
  rcases Graph.Worklist.exists_run hnodes hfuel with ⟨reached, hrun⟩
  refine ⟨reached, hrun, ?_⟩
  intro a
  rw [Graph.Worklist.mem_of_run Graph.Worklist.invariant_start hrun, reachable_iff]

end Objdump
end Jyd
