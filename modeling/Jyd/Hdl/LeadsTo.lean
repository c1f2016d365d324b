import Mathlib.Data.Nat.Find
import Jyd.Hdl.Machine

/-!
# LeadsTo — progress along a run

`P` leads to `Q` when from every cycle with `P` a cycle with `Q` is reached.  One
clock edge gives progress at once; waiting for the environment gives it when the
awaited event comes again and again and `P` survives until then.
-/

namespace Jyd
namespace Hdl
namespace Run

variable {In State : Type} {m : Machine In State} {R : Run m} {P P' Q Q' S : State → Prop}

/-- The environment does `event` again and again. -/
def Recurs (R : Run m) (event : In → Prop) : Prop := ∀ t, ∃ u, t ≤ u ∧ event (R.input u)

def LeadsTo (R : Run m) (P Q : State → Prop) : Prop :=
  ∀ t, P (R.state t) → ∃ u, t ≤ u ∧ Q (R.state u)

namespace LeadsTo

theorem of_imp (h : ∀ s, P s → Q s) : R.LeadsTo P Q := by
  intro t hP
  exact ⟨t, Nat.le_refl t, h _ hP⟩

theorem trans (h : R.LeadsTo P Q) (h' : R.LeadsTo Q S) : R.LeadsTo P S := by
  intro t hP
  rcases h t hP with ⟨u, htu, hQ⟩
  rcases h' u hQ with ⟨v, huv, hS⟩
  exact ⟨v, Nat.le_trans htu huv, hS⟩

theorem or (h : R.LeadsTo P Q) (h' : R.LeadsTo P' Q) : R.LeadsTo (fun s => P s ∨ P' s) Q := by
  intro t hP
  cases hP with
  | inl hP => exact h t hP
  | inr hP => exact h' t hP

/-- One alternative of the goal may be reached later. -/
theorem or_trans (h : R.LeadsTo P (fun s => Q s ∨ S s)) (h' : R.LeadsTo Q S) : R.LeadsTo P S :=
  h.trans (h'.or (of_imp fun _ hS => hS))

/-- Progress by one clock edge. -/
theorem of_step (h : ∀ i s, P s → Q (m.next i s)) : R.LeadsTo P Q := by
  intro t hP
  refine ⟨t + 1, Nat.le_succ t, ?_⟩
  rw [R.step t]
  exact h _ _ hP

/-- Progress by an event of the environment that `P` waits for. -/
theorem of_event {event : In → Prop} (hev : R.Recurs event)
    (hstay : ∀ i s, P s → P (m.next i s) ∨ Q (m.next i s))
    (hgo : ∀ i s, P s → event i → Q (m.next i s)) : R.LeadsTo P Q := by
  intro t hP
  rcases hev t with ⟨u, htu, he⟩
  -- either `Q` came earlier, or `P` is still there when the event happens
  have hwait : ∀ n, (∃ v, t ≤ v ∧ v ≤ t + n ∧ Q (R.state v)) ∨ P (R.state (t + n)) := by
    intro n
    induction n with
    | zero => exact Or.inr hP
    | succ n ih =>
      rcases ih with ⟨v, htv, hvn, hQ⟩ | hPn
      · exact Or.inl ⟨v, htv, by omega, hQ⟩
      · have hnext := hstay (R.input (t + n)) (R.state (t + n)) hPn
        rw [← R.step (t + n)] at hnext
        rcases hnext with hP' | hQ'
        · exact Or.inr hP'
        · exact Or.inl ⟨t + n + 1, by omega, Nat.le_refl _, hQ'⟩
  rcases hwait (u - t) with ⟨v, htv, _, hQ⟩ | hPu
  · exact ⟨v, htv, hQ⟩
  · rw [Nat.add_sub_cancel' htu] at hPu
    refine ⟨u + 1, by omega, ?_⟩
    rw [R.step u]
    exact hgo _ _ hPu he

/-- The first cycle in which the goal is reached. -/
theorem first (h : R.LeadsTo P Q) {t : ℕ} (hP : P (R.state t)) :
    ∃ u, t ≤ u ∧ Q (R.state u) ∧ ∀ k, t ≤ k → k < u → ¬ Q (R.state k) := by
  classical
  have hex : ∃ n, Q (R.state (t + n)) := by
    rcases h t hP with ⟨u, htu, hQ⟩
    exact ⟨u - t, by rwa [Nat.add_sub_cancel' htu]⟩
  refine ⟨t + Nat.find hex, by omega, Nat.find_spec hex, ?_⟩
  intro k htk hku hQ
  have hmin := Nat.find_min hex (show k - t < Nat.find hex by omega)
  rw [Nat.add_sub_cancel' htk] at hmin
  exact hmin hQ

end LeadsTo

/-- The first occurrence of an event that `P` waits for, if it comes whenever `P` stays. -/
theorem first_event (event : In → State → Bool) {t : ℕ} (hP : P (R.state t))
    (hstay : ∀ i s, P s → event i s = false → P (m.next i s))
    (hev : (∀ u, t ≤ u → P (R.state u)) → ∃ u, t ≤ u ∧ event (R.input u) (R.state u) = true) :
    ∃ a, t ≤ a ∧ event (R.input a) (R.state a) = true ∧
      (∀ k, t ≤ k → k ≤ a → P (R.state k)) ∧
      ∀ k, t ≤ k → k < a → event (R.input k) (R.state k) = false := by
  classical
  -- as long as the event has not come, `P` stays
  have hkeep : ∀ n, (∀ k, t ≤ k → k < t + n → event (R.input k) (R.state k) = false) →
      P (R.state (t + n)) := by
    intro n
    induction n with
    | zero => exact fun _ => hP
    | succ n ih =>
      intro hno
      have hn := ih fun k htk hkn => hno k htk (by omega)
      have hnext := hstay _ _ hn (hno (t + n) (by omega) (by omega))
      rwa [← R.step (t + n)] at hnext
  have hex : ∃ n, event (R.input (t + n)) (R.state (t + n)) = true := by
    by_contra hnone
    have hno : ∀ k, t ≤ k → event (R.input k) (R.state k) = false := by
      intro k hk
      refine Bool.eq_false_iff.mpr fun h => hnone ⟨k - t, ?_⟩
      rwa [Nat.add_sub_cancel' hk]
    have hstays : ∀ u, t ≤ u → P (R.state u) := by
      intro u hu
      have hu' := hkeep (u - t) fun k hk _ => hno k hk
      rwa [Nat.add_sub_cancel' hu] at hu'
    rcases hev hstays with ⟨u, hu, he⟩
    exact absurd (he.symm.trans (hno u hu)) (by decide)
  have hbefore : ∀ k, t ≤ k → k < t + Nat.find hex → event (R.input k) (R.state k) = false := by
    intro k hk hlt
    have hmin := Nat.find_min hex (show k - t < Nat.find hex by omega)
    rw [Nat.add_sub_cancel' hk] at hmin
    exact Bool.eq_false_iff.mpr hmin
  refine ⟨t + Nat.find hex, by omega, Nat.find_spec hex, ?_, hbefore⟩
  intro k hk hle
  have hk' := hkeep (k - t) fun j hj hjk => hbefore j hj (by omega)
  rwa [Nat.add_sub_cancel' hk] at hk'

/-- No natural number can be lowered again and again. -/
theorem not_descending (rank : ℕ → ℕ) : ¬ ∀ t, ∃ u, rank u < rank t := by
  intro h
  have hno : ∀ n t, rank t = n → False := by
    intro n
    induction n using Nat.strong_induction_on with
    | _ n ih =>
      intro t ht
      rcases h t with ⟨u, hu⟩
      exact ih (rank u) (ht ▸ hu) u rfl
  exact hno _ 0 rfl

end Run
end Hdl
end Jyd
