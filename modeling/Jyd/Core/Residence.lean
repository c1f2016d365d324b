import Jyd.Core.Execution

/-!
# Residence — an instruction in EXU, from its issue to its completion

Whatever EXU holds was issued in some earlier cycle and has waited since.  The cycle in which
it completes is therefore the one in which its unit is done.
-/

namespace Jyd
namespace Core
namespace CPUCore

open Hdl

variable {R : Run machine} {s t : ℕ}

/-- The instruction that EXU holds in cycle `t` was issued in cycle `s` and has waited since. -/
structure Resides (R : Run machine) (s t : ℕ) : Prop where
  issues : Issues R s
  lt : s < t
  holds : ∀ v, s < v → v ≤ t → Holds R (IDU.outBits (issuing R s)) v
  waits : ∀ v, s < v → v < t → exuInFire (R.state v) (R.input v) = false

/-- An instruction that stays was valid before, and waits. -/
theorem stays_of_no_move (hmove : (R.state t).exuPipe.allowIn
      (exuPipeReady (R.state t) (R.input t)) = false) :
    exuInValid (R.state t) = true ∧ exuInFire (R.state t) (R.input t) = false := by
  have hv : exuInValid (R.state t) = true := by
    by_contra hno
    have hinv : exuInValid (R.state t) = false := by simpa using hno
    have hready : (R.state t).exuPipe.allowIn (exuPipeReady (R.state t) (R.input t)) = true := by
      simp only [exuInValid, Bool.and_eq_false_iff, Bool.not_eq_false'] at hinv
      rcases hinv with (hp | hepoch) | hkill
      · simp [Pipe.allowIn, hp]
      · simp [Pipe.allowIn, exuPipeReady, hepoch]
      · simp [Pipe.allowIn, exuPipeReady, hkill]
    exact Bool.false_ne_true (hmove.symm.trans hready)
  refine ⟨hv, Bool.eq_false_iff.mpr fun hfire => ?_⟩
  -- an instruction that completes leaves its latch
  have hin : EXU.inReady (R.state t).exu (exuIn (R.state t) (R.input t)) = true := by
    have hfire' : EXU.inFire (R.state t).exu (exuIn (R.state t) (R.input t)) = true := hfire
    simp only [EXU.inFire, Bool.and_eq_true] at hfire'
    exact hfire'.2
  simp [Pipe.allowIn, exuPipeReady, hin] at hmove

theorem exists_resides (hv : exuInValid (R.state t) = true) : ∃ s, Resides R s t := by
  induction t with
  | zero => exact absurd (R.init.exuPipe.symm.trans (exuInValid_iff.mp hv).1) (by decide)
  | succ t ih =>
    cases hmove : (R.state t).exuPipe.allowIn (exuPipeReady (R.state t) (R.input t)) with
    | true =>
      have hvalid : IDU.outValid (iduIn (R.state t) (R.input t)) = true := by
        have hp := (exuInValid_iff.mp hv).1
        rw [R.step t] at hp
        simpa [machine, next, Pipe.next, hmove] using hp
      have hissues : Issues R t := ⟨hmove, hvalid, hv⟩
      refine ⟨t, hissues, Nat.lt_succ_self t, ?_, ?_⟩
      · intro v hlt hle
        obtain rfl : v = t + 1 := by omega
        exact hissues.holds
      · intro v hlt hle
        omega
    | false =>
      rcases stays_of_no_move hmove with ⟨hbefore, hwait⟩
      rcases ih hbefore with ⟨s, hres⟩
      refine ⟨s, hres.issues, Nat.lt_succ_of_lt hres.lt, ?_, ?_⟩
      · intro v hlt hle
        rcases Nat.lt_succ_iff_lt_or_eq.mp (Nat.lt_succ_of_le hle) with hv' | rfl
        · exact hres.holds v hlt (by omega)
        · exact (hres.holds t hres.lt le_rfl).next hwait
      · intro v hlt hle
        rcases Nat.lt_succ_iff_lt_or_eq.mp hle with hv' | rfl
        · exact hres.waits v hlt hv'
        · exact hwait

namespace Resides

theorem bits (h : Resides R s t) : (R.state t).exuPipe.bits = IDU.outBits (issuing R s) :=
  (h.holds t h.lt le_rfl).2

/-- The completion is not behind the cycle in which the instruction is still there. -/
theorem le_of_executes (h : Resides R s t) {d : DecodedInst} {u : ℕ}
    (hexec : Executes R d (s + 1) u) : t ≤ u := by
  by_contra hlt
  have hwait := h.waits u (Nat.lt_of_succ_le hexec.le) (by omega)
  exact Bool.false_ne_true (hwait.symm.trans hexec.completes)

/-- The cycle in which the instruction completes is the one in which its unit is done. -/
theorem eq_of_executes (h : Resides R s t) {d : DecodedInst} {u : ℕ}
    (hexec : Executes R d (s + 1) u) (hfire : exuInFire (R.state t) (R.input t) = true) : u = t := by
  refine Nat.le_antisymm ?_ (h.le_of_executes hexec)
  by_contra hlt
  have hwait := hexec.waits t h.lt (by omega)
  exact Bool.false_ne_true (hwait.symm.trans hfire)

end Resides

end CPUCore
end Core
end Jyd
