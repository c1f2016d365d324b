import Jyd.Branchsim.RtlModel
import Jyd.Core.Idu
import Jyd.Hdl.BitField

/-!
# Ftrace — jump targets of the function tracer

`get_target_addr_riscv` recomputes the target of a traced jump from the instruction word.
The branch simulator and the core decode the same immediate in their own ways; the tracer
extends the sign from bit 12 instead of bit 20.
-/

namespace Jyd
namespace Sdb

open Hdl

structure TraceContext where
  pc : Word
  regs : BitVec 5 → Word
  inst : Word

/-- The offset of `jal` as the tracer assembles it. -/
def ftraceJalImm (instr : Word) : Word :=
  (((instr >>> 21) &&& 0x3ff#32) <<< 1) ||| (((instr >>> 20) &&& 0x1#32) <<< 11) |||
    (((instr >>> 12) &&& 0xff#32) <<< 12) ||| (if instr >>> 31 ≠ 0#32 then 0xfffff000#32 else 0#32)

def getTargetAddrRiscv (ctx : TraceContext) : Word :=
  let instr := ctx.inst
  let opcode := instr.setWidth 8 &&& 0x7f#8
  if opcode = 0x6f#8 then ctx.pc + ftraceJalImm instr
  else if opcode = 0x67#8 then
    let imm := ((instr >>> 20) &&& 0xfff#32) ||| (if instr >>> 31 ≠ 0#32 then 0xfffff000#32 else 0#32)
    let rs1 := ((instr >>> 15) &&& 0x1f#32).setWidth 5
    (ctx.regs rs1 + imm) &&& ~~~1#32
  else 0

/-! ## The offset of the instruction set -/

/-- The 21-bit offset of `jal`. -/
def jalOffset (instr : Word) : BitVec 21 :=
  instr.extractLsb' 31 1 ++ instr.extractLsb' 12 8 ++ instr.extractLsb' 20 1 ++
    instr.extractLsb' 21 10 ++ 0#1

theorem getLsbD_jalOffset (instr : Word) (n : ℕ) :
    (jalOffset instr).getLsbD n =
      if n < 1 then false
      else if n < 11 then instr.getLsbD (n + 20)
      else if n < 12 then instr.getLsbD 20
      else if n < 20 then instr.getLsbD n
      else decide (n < 21) && instr.getLsbD 31 := by
  simp only [jalOffset, BitVec.getLsbD_append, BitVec.getLsbD_extractLsb', BitVec.getLsbD_zero]
  grind

theorem getLsbD_target (instr : Word) {n : ℕ} (hn : n < 32) :
    ((jalOffset instr).signExtend 32).getLsbD n =
      if n < 20 then (jalOffset instr).getLsbD n else instr.getLsbD 31 := by
  rw [BitVec.getLsbD_signExtend, BitVec.msb_eq_getLsbD_last]
  simp only [getLsbD_jalOffset]
  grind

/-! ## Three decoders -/

theorem getJImm_eq (instr : Word) : Branchsim.getJImm instr = (jalOffset instr).signExtend 32 := by
  apply BitVec.eq_of_getLsbD_eq
  intro n hn
  -- the assembled field is the offset, with nothing above its sign bit
  have hfield : ∀ m, (((((instr >>> 31) &&& 0x1#32) <<< 20) ||| (((instr >>> 12) &&& 0xff#32) <<< 12) |||
      (((instr >>> 20) &&& 0x1#32) <<< 11) ||| (((instr >>> 21) &&& 0x3ff#32) <<< 1))).getLsbD m =
        (jalOffset instr).getLsbD m := by
    intro m
    simp only [BitVec.getLsbD_or, BitVec.getLsbD_shiftLeft, BitVec.getLsbD_ushiftRight,
      getLsbD_mask (k := 1) _ 0x1#32 (by decide), getLsbD_mask (k := 8) _ 0xff#32 (by decide),
      getLsbD_mask (k := 10) _ 0x3ff#32 (by decide), getLsbD_jalOffset]
    grind
  have hsign : (Branchsim.getJImm instr).getLsbD n =
      if n < 20 then (jalOffset instr).getLsbD n else (jalOffset instr).getLsbD 20 := by
    rw [← hfield, ← hfield]
    refine getLsbD_flip_sub (by decide) ?_ n hn
    intro m hm
    rw [hfield]
    exact BitVec.getLsbD_of_ge _ _ hm
  rw [hsign, getLsbD_target instr hn, getLsbD_jalOffset instr 20]
  rfl

theorem immJ_eq (instr : Word) : Core.IDU.immJ instr = (jalOffset instr).signExtend 32 := by
  apply BitVec.eq_of_getLsbD_eq
  intro n hn
  have hfill : ∀ m, (fill 21 (instr.getLsbD 31)).getLsbD m = (decide (m < 21) && instr.getLsbD 31) := by
    intro m
    cases instr.getLsbD 31 with
    | false => simp [fill]
    | true => rw [fill, if_pos rfl, BitVec.getLsbD_allOnes, Bool.and_true]
  rw [getLsbD_target instr hn, getLsbD_jalOffset]
  simp only [Core.IDU.immJ, Core.IDU.immI, BitVec.getLsbD_append, BitVec.getLsbD_extractLsb', hfill,
    BitVec.getLsbD_zero]
  grind

/-- The sign the tracer adds starts at bit 12. -/
theorem getLsbD_ftraceJalImm (instr : Word) {n : ℕ} (hn : n < 32) :
    (ftraceJalImm instr).getLsbD n =
      (((jalOffset instr).signExtend 32).getLsbD n || (instr.getLsbD 31 && decide (12 ≤ n))) := by
  have hsign : (if instr >>> 31 ≠ 0#32 then 0xfffff000#32 else 0#32).getLsbD n =
      (instr.getLsbD 31 && decide (12 ≤ n)) := by
    have hbit : instr >>> 31 = 0#32 ↔ instr.getLsbD 31 = false := by
      rw [← BitVec.msb_eq_getLsbD_last, BitVec.msb_eq_false_iff_two_mul_lt, ← BitVec.toNat_inj]
      simp only [BitVec.toNat_ushiftRight, Nat.shiftRight_eq_div_pow, BitVec.toNat_ofNat]
      omega
    have hones : (0xfffff000#32).getLsbD n = decide (12 ≤ n) := by
      rw [show 0xfffff000#32 = BitVec.allOnes 32 <<< 12 by decide, BitVec.getLsbD_shiftLeft,
        BitVec.getLsbD_allOnes]
      grind
    cases hb : instr.getLsbD 31 with
    | false => simp [hbit.mpr hb]
    | true =>
      have hne : instr >>> 31 ≠ 0#32 := fun h => Bool.false_ne_true ((hbit.mp h).symm.trans hb)
      rw [if_pos hne, hones, Bool.true_and]
  rw [getLsbD_target instr hn, getLsbD_jalOffset]
  simp only [ftraceJalImm, BitVec.getLsbD_or, BitVec.getLsbD_shiftLeft, BitVec.getLsbD_ushiftRight,
    hsign, getLsbD_mask (k := 1) _ 0x1#32 (by decide), getLsbD_mask (k := 8) _ 0xff#32 (by decide),
    getLsbD_mask (k := 10) _ 0x3ff#32 (by decide)]
  grind

/-- The tracer's offset is right unless it overwrites bits 12 to 19 of a backward jump. -/
theorem ftraceJalImm_eq_iff (instr : Word) :
    ftraceJalImm instr = (jalOffset instr).signExtend 32 ↔
      (instr.getLsbD 31 = true → instr.extractLsb' 12 8 = 0xff#8) := by
  constructor
  · intro heq hsign
    apply BitVec.eq_of_getLsbD_eq
    intro n hn
    have hbit := getLsbD_ftraceJalImm instr (n := n + 12) (by omega)
    rw [heq, hsign, getLsbD_target instr (by omega), getLsbD_jalOffset] at hbit
    rw [show 0xff#8 = BitVec.allOnes 8 by decide, BitVec.getLsbD_allOnes,
      BitVec.getLsbD_extractLsb']
    grind
  · intro hones
    apply BitVec.eq_of_getLsbD_eq
    intro n hn
    rw [getLsbD_ftraceJalImm instr hn, getLsbD_target instr hn, getLsbD_jalOffset]
    cases hsign : instr.getLsbD 31 with
    | false => simp
    | true =>
      have hbit := congrArg (fun x => x.getLsbD (n - 12)) (hones hsign)
      rw [show 0xff#8 = BitVec.allOnes 8 by decide] at hbit
      simp only [BitVec.getLsbD_extractLsb', BitVec.getLsbD_allOnes] at hbit
      grind

/-! ## The target of a `jal` -/

/-- What the instruction set defines. -/
def jalTarget (pc instr : Word) : Word := pc + (jalOffset instr).signExtend 32

/-- The tracer, the branch simulator and the core agree on the target of a `jal` unless it
jumps back by more than 4 KB. -/
theorem jal_targets_agree_iff (ctx : TraceContext) (hjal : ctx.inst &&& 0x7f#32 = 0x6f#32) :
    (getTargetAddrRiscv ctx = jalTarget ctx.pc ctx.inst ∧
      (Branchsim.decodeBranch ctx.pc ctx.inst).directTarget = jalTarget ctx.pc ctx.inst ∧
      ctx.pc + Core.IDU.imm ctx.inst = jalTarget ctx.pc ctx.inst) ↔
    (ctx.inst.getLsbD 31 = true → ctx.inst.extractLsb' 12 8 = 0xff#8) := by
  have hop : ctx.inst.setWidth 8 &&& 0x7f#8 = 0x6f#8 := by
    rw [show 0x7f#8 = (0x7f#32).setWidth 8 by decide, ← BitVec.setWidth_and, hjal]
    decide
  have hfmt : (Core.IDU.metaInfo ctx.inst).fmt = .jump := by
    have hfield : ctx.inst.extractLsb' 0 7 = 0x6f#7 := by
      have hmask : (ctx.inst &&& 0x7f#32).extractLsb' 0 7 = ctx.inst.extractLsb' 0 7 := by
        rw [BitVec.extractLsb'_and]
        exact BitVec.and_allOnes
      rw [← hmask, hjal]
      decide
    rw [Core.IDU.metaInfo, hfield]
    rfl
  have hbranch : Branchsim.isConditionalBranch ctx.inst = false := by
    rw [Branchsim.isConditionalBranch, hjal]
    decide
  have hisjal : Branchsim.isJal ctx.inst = true := by
    rw [Branchsim.isJal, hjal]
    decide
  have htracer : getTargetAddrRiscv ctx = ctx.pc + ftraceJalImm ctx.inst := if_pos hop
  have hsimulator : (Branchsim.decodeBranch ctx.pc ctx.inst).directTarget =
      jalTarget ctx.pc ctx.inst := by
    rw [jalTarget, ← getJImm_eq]
    simp [Branchsim.decodeBranch, hbranch, hisjal]
  have hcore : ctx.pc + Core.IDU.imm ctx.inst = jalTarget ctx.pc ctx.inst := by
    rw [jalTarget, ← immJ_eq, Core.IDU.imm, hfmt]
  rw [htracer, jalTarget, BitVec.add_right_inj, ftraceJalImm_eq_iff]
  exact ⟨fun h => h.1, fun h => ⟨h, hsimulator, hcore⟩⟩

/-- `jal x0, -8192` at `0x80004000`. -/
def farBack : TraceContext := ⟨0x80004000#32, fun _ => 0, 0x800fe06f#32⟩

/-- The tracer sees a jump of one page where the other two see one of two pages. -/
theorem far_back_jump_differs :
    farBack.inst &&& 0x7f#32 = 0x6f#32 ∧ jalTarget farBack.pc farBack.inst = 0x80002000#32 ∧
      (Branchsim.decodeBranch farBack.pc farBack.inst).directTarget = 0x80002000#32 ∧
      farBack.pc + Core.IDU.imm farBack.inst = 0x80002000#32 ∧
      getTargetAddrRiscv farBack = 0x80003000#32 := by
  decide

/-- `jal x1, -4` at `0x80000010`. -/
theorem jal_targets_agree_iff_near :
    let ctx : TraceContext := ⟨0x80000010#32, fun _ => 0, 0xffdff0ef#32⟩
    getTargetAddrRiscv ctx = jalTarget ctx.pc ctx.inst ∧
      (Branchsim.decodeBranch ctx.pc ctx.inst).directTarget = jalTarget ctx.pc ctx.inst ∧
      ctx.pc + Core.IDU.imm ctx.inst = jalTarget ctx.pc ctx.inst :=
  (jal_targets_agree_iff ⟨0x80000010#32, fun _ => 0, 0xffdff0ef#32⟩ (by decide)).mpr (by decide)

end Sdb
end Jyd
