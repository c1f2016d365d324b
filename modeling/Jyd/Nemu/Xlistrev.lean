import Mathlib.Logic.Function.Iterate
import Jyd.Hdl.LinkedList
import Jyd.Nemu.Inst

/-!
# Xlistrev — list reversal in the reference simulator

Seen as words, the byte memory changes by one word a step, so the two instructions
relink a list in place like the abstract `relink`.
-/

namespace Jyd
namespace Nemu

open Hdl LinkedList

/-! ## Words of the byte memory -/

section Words

variable {pmem : Pmem} {a b v : Word}

theorem byteOf_vaddrRead {k : ℕ} (hk : k < 4) :
    byteOf (vaddrRead pmem a) k = pmem (a + BitVec.ofNat 32 k) :=
  byteOf_ofBytes _ hk

theorem vaddrRead_write_self : vaddrRead (vaddrWrite pmem a v) a = v := by
  apply eq_of_byteOf
  intro k hk
  have hsub : a + BitVec.ofNat 32 k - a = BitVec.ofNat 32 k := by
    rw [BitVec.add_comm, BitVec.add_sub_cancel]
  have hnat : (BitVec.ofNat 32 k).toNat = k := by
    rw [BitVec.toNat_ofNat, Nat.mod_eq_of_lt (by omega)]
  rw [byteOf_vaddrRead hk, vaddrWrite, hsub, hnat, if_pos hk]

/-- Aligned words do not overlap. -/
theorem vaddrRead_write_of_ne (ha : a.toNat % 4 = 0) (hb : b.toNat % 4 = 0) (hne : a ≠ b) :
    vaddrRead (vaddrWrite pmem a v) b = vaddrRead pmem b := by
  apply eq_of_byteOf
  intro k hk
  have hfar : ¬ (b + BitVec.ofNat 32 k - a).toNat < 4 := by
    intro hlt
    apply hne
    apply BitVec.eq_of_toNat_eq
    have hab := a.isLt
    have hbb := b.isLt
    rw [BitVec.toNat_sub, BitVec.toNat_add, BitVec.toNat_ofNat] at hlt
    omega
  rw [byteOf_vaddrRead hk, byteOf_vaddrRead hk, vaddrWrite, if_neg hfar]

end Words

/-! ## The two instructions -/

variable {Cell : Type} [DecidableEq Cell]

/-- The words of the byte memory at the addresses of a region, as cells. -/
def Agrees (node : Word → Prop) (cell : Word → Cell) (pmem : Pmem) (mem : Cell → Word) : Prop :=
  ∀ a, node a → vaddrRead pmem a = mem (cell a)

section Region

variable {node : Word → Prop} {cell : Word → Cell} {mem : Cell → Word} {s : Cpu} {rd : BitVec 5}
  {cur prev : Word}
  (halign : ∀ {a}, node a → a.toNat % 4 = 0)
  (hinj : ∀ {a b}, node a → node b → cell a = cell b → a = b)

include halign hinj in
theorem Agrees.write {pmem : Pmem} (h : Agrees node cell pmem mem) {a : Word} (ha : node a)
    (v : Word) : Agrees node cell (vaddrWrite pmem a v) (Function.update mem (cell a) v) := by
  intro b hb
  by_cases hab : a = b
  · subst hab
    rw [vaddrRead_write_self, Function.update_self]
  · have hcell : cell b ≠ cell a := fun heq => hab (hinj ha hb heq.symm)
    rw [vaddrRead_write_of_ne (halign ha) (halign hb) hab, Function.update_of_ne hcell]
    exact h b hb

/-- A write to a register other than `x0`. -/
theorem gpr_setReg (hrd : rd ≠ 0#5) (h0 : s.gpr 0#5 = 0#32) (v : Word) :
    (s.setReg rd v).gpr = Function.update s.gpr rd v := by
  have hzero : Function.update s.gpr rd v 0#5 = 0#32 := by
    rw [Function.update_of_ne (Ne.symm hrd), h0]
  calc (s.setReg rd v).gpr
      = Function.update (Function.update s.gpr rd v) 0#5 0#32 := rfl
    _ = Function.update s.gpr rd v := by rw [← hzero, Function.update_eq_self]

/-- The loop is about to visit `cur`. -/
structure Visits (node : Word → Prop) (cell : Word → Cell) (rd : BitVec 5) (mem : Cell → Word)
    (cur prev : Word) (s : Cpu) : Prop where
  current : s.gpr rd = cur
  zero : s.gpr 0#5 = 0#32
  previous : s.listReversePrevious = prev
  agrees : Agrees node cell s.pmem mem

include halign hinj

variable (hrd : rd ≠ 0#5)

include hrd

theorem Visits.step (h : Visits node cell rd mem cur prev s) (hcur : node cur) (h0 : cur ≠ 0#32)
    (hnext : mem (cell cur) ≠ 0#32) :
    Visits node cell rd (Function.update mem (cell cur) prev) (mem (cell cur)) cur
        (s.exec (.xlistrevLoop rd rd)) ∧
      (s.exec (.xlistrevLoop rd rd)).pc = s.pc ∧
      (s.exec (.xlistrevLoop rd rd)).gpr = Function.update s.gpr rd (mem (cell cur)) := by
  have hread : vaddrRead s.pmem cur = mem (cell cur) := h.agrees cur hcur
  have hgpr : (s.exec (.xlistrevLoop rd rd)).gpr = Function.update s.gpr rd (mem (cell cur)) := by
    rw [← gpr_setReg hrd h.zero]
    simp [Cpu.exec, Cpu.effect, h.current, h0, hread, hnext]
  refine ⟨⟨?_, ?_, ?_, ?_⟩, ?_, hgpr⟩
  · rw [hgpr, Function.update_self]
  · rw [hgpr, Function.update_of_ne (Ne.symm hrd), h.zero]
  · simp [Cpu.exec, Cpu.effect, h.current, h0]
  · have hwrite := h.agrees.write halign hinj hcur prev
    simpa [Cpu.exec, Cpu.effect, h.current, h0, h.previous] using hwrite
  · simp [Cpu.exec, Cpu.dnpc, h.current, h0, hread, hnext]

/-- The loop relinks the rest of the list and returns its last node. -/
theorem loop_reverses {nodes : List Word} (hlist : Linked 0#32 cell mem cur nodes)
    (hnode : ∀ a ∈ nodes, node a) (hnodup : (nodes.map cell).Nodup)
    (h : Visits node cell rd mem cur prev s) :
    ∃ k, (∀ j ≤ k, ((Cpu.exec · (.xlistrevLoop rd rd))^[j] s).pc = s.pc) ∧
      ((Cpu.exec · (.xlistrevLoop rd rd))^[k + 1] s).pc = s.pc + 4 ∧
      Agrees node cell ((Cpu.exec · (.xlistrevLoop rd rd))^[k + 1] s).pmem
        (relink cell mem prev nodes) ∧
      ((Cpu.exec · (.xlistrevLoop rd rd))^[k + 1] s).gpr =
        Function.update s.gpr rd (lastNode prev nodes) := by
  induction nodes generalizing s mem cur prev with
  | nil =>
    -- the null pointer returns the predecessor
    have hcur : s.gpr rd = 0#32 := h.current.trans hlist
    refine ⟨0, ?_, ?_, ?_, ?_⟩
    · intro j hj
      rw [Nat.le_zero.mp hj]
      rfl
    · simp [Cpu.exec, Cpu.dnpc, hcur]
    · simpa [Cpu.exec, Cpu.effect, hcur, Cpu.setReg, relink] using h.agrees
    · have hgpr := gpr_setReg (s := s) hrd h.zero prev
      simpa [Cpu.exec, Cpu.effect, hcur, h.previous, lastNode] using hgpr
  | cons x xs ih =>
    rcases hlist with ⟨rfl, h0, hrest⟩
    rw [List.map_cons, List.nodup_cons] at hnodup
    have hcur := hnode cur List.mem_cons_self
    have hread : vaddrRead s.pmem cur = mem (cell cur) := h.agrees cur hcur
    by_cases hz : mem (cell cur) = 0#32
    · rw [hz] at hrest
      obtain rfl := hrest.eq_nil
      refine ⟨0, ?_, ?_, ?_, ?_⟩
      · intro j hj
        rw [Nat.le_zero.mp hj]
        rfl
      · simp [Cpu.exec, Cpu.dnpc, h.current, hread, hz]
      · have hwrite := h.agrees.write halign hinj hcur prev
        simpa [Cpu.exec, Cpu.effect, h.current, h0, h.previous, relink] using hwrite
      · have hgpr := gpr_setReg (s := s) hrd h.zero cur
        simpa [Cpu.exec, Cpu.effect, h.current, h0, hread, hz, lastNode] using hgpr
    · have hother : ∀ y ∈ xs, cell y ≠ cell cur := fun y hy heq =>
        hnodup.1 (heq ▸ List.mem_map_of_mem hy)
      rcases h.step halign hinj hrd hcur h0 hz with ⟨hvisits, hpc, hgpr⟩
      rcases ih (hrest.update prev hother) (fun a ha => hnode a (List.mem_cons_of_mem _ ha))
        hnodup.2 hvisits with ⟨k, hstay, hleave, hagrees, hregs⟩
      refine ⟨k + 1, ?_, ?_, hagrees, ?_⟩
      · intro j hj
        cases j with
        | zero => rfl
        | succ j => exact (hstay j (by omega)).trans hpc
      · exact hleave.trans (by rw [hpc])
      · refine hregs.trans ?_
        rw [hgpr, Function.update_idem]
        rfl

/-- The first instruction cuts the head off, the loop does the rest. -/
theorem xlistrev_reverses {rs1 : BitVec 5} {nodes : List Word}
    (hlist : Linked 0#32 cell mem (s.gpr rs1) nodes) (hne : nodes ≠ [])
    (hnode : ∀ a ∈ nodes, node a) (hnodup : (nodes.map cell).Nodup) (hzero : s.gpr 0#5 = 0#32)
    (h : Agrees node cell s.pmem mem) :
    (s.exec (.xlistrevInit rd rs1)).pc = s.pc + 4 ∧
      ∃ k, (∀ j ≤ k,
          ((Cpu.exec · (.xlistrevLoop rd rd))^[j] (s.exec (.xlistrevInit rd rs1))).pc = s.pc + 4) ∧
        ((Cpu.exec · (.xlistrevLoop rd rd))^[k + 1] (s.exec (.xlistrevInit rd rs1))).pc =
          s.pc + 8 ∧
        Agrees node cell
          ((Cpu.exec · (.xlistrevLoop rd rd))^[k + 1] (s.exec (.xlistrevInit rd rs1))).pmem
          (relink cell mem 0#32 nodes) ∧
        ((Cpu.exec · (.xlistrevLoop rd rd))^[k + 1] (s.exec (.xlistrevInit rd rs1))).gpr =
          Function.update s.gpr rd (lastNode 0#32 nodes) := by
  cases nodes with
  | nil => exact absurd rfl hne
  | cons x xs =>
    rcases hlist with ⟨hx, h0, hrest⟩
    rw [List.map_cons, List.nodup_cons] at hnodup
    have hcur := hnode x List.mem_cons_self
    have hother : ∀ y ∈ xs, cell y ≠ cell x := fun y hy heq =>
      hnodup.1 (heq ▸ List.mem_map_of_mem hy)
    have hpc : (s.exec (.xlistrevInit rd rs1)).pc = s.pc + 4 := rfl
    have hgpr : (s.exec (.xlistrevInit rd rs1)).gpr =
        Function.update s.gpr rd (mem (cell x)) := by
      have hread : vaddrRead s.pmem x = mem (cell x) := h x hcur
      rw [← gpr_setReg hrd hzero]
      simp [Cpu.exec, Cpu.effect, hx, hread]
    have hvisits : Visits node cell rd (Function.update mem (cell x) 0#32) (mem (cell x)) x
        (s.exec (.xlistrevInit rd rs1)) := by
      refine ⟨?_, ?_, ?_, ?_⟩
      · rw [hgpr, Function.update_self]
      · rw [hgpr, Function.update_of_ne (Ne.symm hrd), hzero]
      · simp [Cpu.exec, Cpu.effect, hx]
      · have hwrite := h.write halign hinj hcur 0#32
        simpa [Cpu.exec, Cpu.effect, hx] using hwrite
    rcases loop_reverses halign hinj hrd (hrest.update 0#32 hother)
      (fun a ha => hnode a (List.mem_cons_of_mem _ ha)) hnodup.2 hvisits with
      ⟨k, hstay, hleave, hagrees, hregs⟩
    refine ⟨hpc, k, hstay, ?_, hagrees, ?_⟩
    · rw [hleave, hpc, BitVec.add_assoc]
      rfl
    · refine hregs.trans ?_
      rw [hgpr, Function.update_idem]
      rfl

end Region

end Nemu
end Jyd
