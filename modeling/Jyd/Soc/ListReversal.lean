import Jyd.Soc.ListLoop

/-!
# ListReversal — the loop visits the whole list

Every operation reaches its completion, and the loop instruction is fetched again
until the null pointer is found.  By induction over the nodes the memory becomes the
relinked one and the destination register the last node.
-/

namespace Jyd
namespace Soc
namespace JYDSoC

open Hdl Jyd.Core LinkedList

variable {c : Config} {d : RamRegion c.dramSizeInByte} {e : BitVec 15} {op : DecodedInst}
  {m : ℕ → Word} {S : RegisterFile.Regs} {cur prev : Word}
  {P : Regs → Prop} {R : Run (⟨P, next c⟩ : Machine In Regs)}

theorem writeReg_writeReg (x : BitVec 5) (v w : Word) (S : RegisterFile.Regs) :
    writeReg x w (writeReg x v S) = writeReg x w S := by
  by_cases h0 : x = 0#5
  · simp [writeReg, h0]
  · simp [writeReg, h0]

/-! ## One operation -/

section Op

variable (hregion : d.region cur)
  (hsucc : m (cellOf c cur) ≠ 0#32 →
    d.region (m (cellOf c cur)) ∧ cellOf c (m (cellOf c cur)) ≠ cellOf c cur)

include hregion hsucc

theorem store_done : R.LeadsTo (AtStore d e op m S cur prev) (AtDone d e op m S cur prev) :=
  Run.LeadsTo.of_step fun _ _ h => h.step hregion hsucc

/-- The load takes three cycles to the store. -/
theorem load_done : R.LeadsTo (AtLoad d e op m S cur prev) (AtDone d e op m S cur prev) := by
  have hsent : R.LeadsTo (AtLoad d e op m S cur prev) (AtSent d e op m S cur prev) :=
    Run.LeadsTo.of_step fun _ _ h => h.step hregion
  have hanswer : R.LeadsTo (AtSent d e op m S cur prev) (AtAnswer d e op m S cur prev) :=
    Run.LeadsTo.of_step fun _ _ h => h.step hregion
  have hstore : R.LeadsTo (AtAnswer d e op m S cur prev) (AtStore d e op m S cur prev) :=
    Run.LeadsTo.of_step fun _ _ h => h.step hregion
  exact ((hsent.trans hanswer).trans hstore).trans (store_done hregion hsucc)

theorem init_done {head : Word} (hhead : head = cur) (h0 : head ≠ 0#32) :
    R.LeadsTo (AtInit d e op m S head) (AtDone d e op m S cur 0#32) := by
  subst hhead
  have hlookup : R.LeadsTo (AtInit d e op m S head) (AtLookup d e op m S head 0#32) :=
    Run.LeadsTo.of_step fun _ _ h => h.step h0
  have hresolve : R.LeadsTo (AtLookup d e op m S head 0#32) (AtResolve d e op m S head 0#32) :=
    Run.LeadsTo.of_step fun _ _ h => h.step hregion
  have hgo : R.LeadsTo (AtResolve d e op m S head 0#32)
      (fun s => AtStore d e op m S head 0#32 s ∨ AtLoad d e op m S head 0#32 s) :=
    Run.LeadsTo.of_step fun _ _ h => h.step hregion
  exact (hlookup.trans hresolve).trans
    (hgo.trans ((store_done hregion hsucc).or (load_done hregion hsucc)))

end Op

/-! ## The loop instruction comes again -/

section Loop

variable (hrom : RomServes R) (hloop : IDU.isListReverseLoopEncoding (program c e) = true)

include hrom in
theorem loop_fetched :
    R.LeadsTo (AtLoop d e m S cur prev)
      (fun s => AtLoop d e m S cur prev s ∧ CPUCore.exuInValid s.core = true) := by
  intro t h
  rcases (sound_holdsInst hrom).first (t := t) ⟨e, h.consistent.front⟩ with ⟨u, htu, hv, hbefore⟩
  -- until then EXU is empty and the loop registers stay
  have hkept : ∀ n, t + n ≤ u → AtLoop d e m S cur prev (R.state (t + n)) := by
    intro n
    induction n with
    | zero => exact fun _ => h
    | succ n ih =>
      intro hle
      have hinv : CPUCore.exuInValid (R.state (t + n)).core = false :=
        Bool.eq_false_iff.mpr (hbefore (t + n) (by omega) (by omega))
      have hstay := (ih (by omega)).stay (i := R.input (t + n)) hinv
      have hstep : R.state (t + (n + 1)) = next c (R.input (t + n)) (R.state (t + n)) :=
        R.step (t + n)
      rw [hstep]
      exact hstay
  have hu := hkept (u - t) (by omega)
  rw [Nat.add_sub_cancel' htu] at hu
  exact ⟨u, htu, hu, hv⟩

include hrom hloop

/-- One round of the loop on a node. -/
theorem loop_round (hregion : d.region cur) (h0 : cur ≠ 0#32)
    (hsucc : m (cellOf c cur) ≠ 0#32 →
      d.region (m (cellOf c cur)) ∧ cellOf c (m (cellOf c cur)) ≠ cellOf c cur) :
    R.LeadsTo (AtLoop d e m S cur prev)
      (fun s => ∃ op, AtDone d e op m S cur prev s ∧ EXU.isListReverseLoop op = true ∧
        op.code = program c e) := by
  refine (loop_fetched hrom).trans ?_
  rintro t ⟨h, hv⟩
  rcases h.holds hv hloop with ⟨hholds, hkind, hcode⟩
  have hstart := h.start (i := R.input t) hholds hkind h0
  rw [show next c (R.input t) (R.state t) = R.state (t + 1) from (R.step t).symm] at hstart
  rcases ((store_done hregion hsucc).or (load_done hregion hsucc)) (t + 1) hstart with
    ⟨u, htu, hdone⟩
  exact ⟨u, by omega, _, hdone, hkind, hcode⟩

/-- From any point of the list, the loop relinks the rest and returns the last node. -/
theorem loop_last {nodes : List Word} (hlist : Linked 0#32 (cellOf c) m cur nodes)
    (hregion : ∀ a ∈ nodes, d.region a) (hnodup : (nodes.map (cellOf c)).Nodup) :
    R.LeadsTo (AtLoop d e m S cur prev)
      (AtLast d e (relink (cellOf c) m prev nodes)
        (writeReg (IDU.rd (program c e)) (lastNode prev nodes) S)) := by
  induction nodes generalizing m S cur prev with
  | nil =>
    refine (loop_fetched hrom).trans ?_
    rintro t ⟨h, hv⟩
    rcases h.holds hv hloop with ⟨hholds, hkind, hcode⟩
    have hnull := h.start_null (i := R.input t) hholds hkind hlist
    rw [hcode, show next c (R.input t) (R.state t) = R.state (t + 1) from (R.step t).symm] at hnull
    exact ⟨t + 1, Nat.le_succ t, hnull⟩
  | cons x xs ih =>
    rcases hlist with ⟨rfl, h0, hrest⟩
    rw [List.map_cons, List.nodup_cons] at hnodup
    have hother : ∀ y ∈ xs, cellOf c y ≠ cellOf c cur := fun y hy heq =>
      hnodup.1 (heq ▸ List.mem_map_of_mem hy)
    -- the successor is the next node of the list, or the list ends here
    have hsucc : m (cellOf c cur) ≠ 0#32 → m (cellOf c cur) ∈ xs := hrest.head_mem
    refine (loop_round hrom hloop (hregion cur List.mem_cons_self) h0 (fun hz =>
      ⟨hregion _ (List.mem_cons_of_mem _ (hsucc hz)), hother _ (hsucc hz)⟩)).trans ?_
    rintro t ⟨op, hdone, hkind, hcode⟩
    by_cases hz : m (cellOf c cur) = 0#32
    · -- the last node
      rw [hz] at hrest
      obtain rfl := hrest.eq_nil
      have hlast := hdone.last hkind hz
      rw [hcode] at hlast
      exact ⟨t, Nat.le_refl t, hlast⟩
    · have hgo := hdone.step (i := R.input t) (fun hz => hother _ (hsucc hz)) (Or.inr hz)
      rw [hkind, hcode, if_pos rfl,
        show next c (R.input t) (R.state t) = R.state (t + 1) from (R.step t).symm] at hgo
      rcases ih (hrest.update prev hother) (fun a ha => hregion a (List.mem_cons_of_mem _ ha))
        hnodup.2 (t + 1) hgo with ⟨u, htu, hlast⟩
      rw [writeReg_writeReg] at hlast
      exact ⟨u, by omega, hlast⟩

end Loop

/-- Both instructions together. -/
theorem xlistrev_last (hrom : RomServes R)
    (hloop : IDU.isListReverseLoopEncoding (program c (e + 1)) = true)
    (hrd : IDU.rd (program c (e + 1)) = IDU.rd op.code) {head : Word} {nodes : List Word}
    (hlist : Linked 0#32 (cellOf c) m head nodes) (hne : nodes ≠ [])
    (hregion : ∀ a ∈ nodes, d.region a) (hnodup : (nodes.map (cellOf c)).Nodup)
    (hfirst : EXU.isListReverseLoop op = false) :
    R.LeadsTo (AtInit d e op m S head)
      (AtLast d (e + 1) (relink (cellOf c) m 0#32 nodes)
        (writeReg (IDU.rd op.code) (lastNode 0#32 nodes) S)) := by
  cases nodes with
  | nil => exact absurd rfl hne
  | cons x xs =>
    rcases hlist with ⟨rfl, h0, hrest⟩
    rw [List.map_cons, List.nodup_cons] at hnodup
    have hother : ∀ y ∈ xs, cellOf c y ≠ cellOf c head := fun y hy heq =>
      hnodup.1 (heq ▸ List.mem_map_of_mem hy)
    have hsucc : m (cellOf c head) ≠ 0#32 → m (cellOf c head) ∈ xs := hrest.head_mem
    refine (init_done (hregion head List.mem_cons_self) (fun hz =>
      ⟨hregion _ (List.mem_cons_of_mem _ (hsucc hz)), hother _ (hsucc hz)⟩) rfl h0).trans ?_
    intro t hdone
    have hgo := hdone.step (i := R.input t) (fun hz => hother _ (hsucc hz)) (Or.inl hfirst)
    rw [hfirst, show next c (R.input t) (R.state t) = R.state (t + 1) from (R.step t).symm] at hgo
    rcases loop_last hrom hloop (hrest.update 0#32 hother)
      (fun a ha => hregion a (List.mem_cons_of_mem _ ha)) hnodup.2 (t + 1) hgo with
      ⟨u, htu, hlast⟩
    rw [hrd, writeReg_writeReg] at hlast
    exact ⟨u, by omega, hlast⟩

end JYDSoC
end Soc
end Jyd
