import Mathlib.Data.List.Chain

/-!
# Machine — synchronous circuits and their runs

A clocked circuit is a set of reset states together with the register update of
one clock edge, under the wires that its environment drives in that cycle.  A
`Run` fixes the environment for all cycles; invariants are proved once per edge
and carried along the run by `Run.invariant`.
-/

namespace Jyd
namespace Hdl

structure Machine (In State : Type) where
  init : State → Prop
  next : In → State → State

variable {In State Ghost : Type}

/-- One infinite execution: the driven wires and the register contents of every cycle. -/
structure Run (m : Machine In State) where
  input : ℕ → In
  state : ℕ → State
  init : m.init (state 0)
  step : ∀ t, state (t + 1) = m.next (input t) (state t)

namespace Machine

/-- The execution of `m` from `s` under a given input sequence. -/
def trace (m : Machine In State) (input : ℕ → In) (s : State) : ℕ → State
  | 0 => s
  | t + 1 => m.next (input t) (m.trace input s t)

/-- Every input sequence has a run from every reset state. -/
def runFrom (m : Machine In State) (input : ℕ → In) (s : State) (h : m.init s) : Run m where
  input := input
  state := m.trace input s
  init := h
  step := fun _ => rfl

end Machine

namespace Run

variable {m : Machine In State}

/-- Induction along a run, under an assumption `A` on each cycle before the one reached. -/
theorem invariant_of (R : Run m) (A : In → State → Prop) (P : State → Prop)
    (hinit : ∀ s, m.init s → P s)
    (hstep : ∀ i s, A i s → P s → P (m.next i s)) :
    ∀ t, (∀ k < t, A (R.input k) (R.state k)) → P (R.state t) := by
  intro t
  induction t with
  | zero =>
    intro _
    exact hinit _ R.init
  | succ t ih =>
    intro hA
    have hbefore : P (R.state t) := ih (fun k hk => hA k (Nat.lt_succ_of_lt hk))
    rw [R.step t]
    exact hstep _ _ (hA t (Nat.lt_succ_self t)) hbefore

theorem invariant (R : Run m) (P : State → Prop)
    (hinit : ∀ s, m.init s → P s)
    (hstep : ∀ i s, P s → P (m.next i s)) :
    ∀ t, P (R.state t) := by
  intro t
  exact R.invariant_of (fun _ _ => True) P hinit (fun i s _ => hstep i s) t (fun _ _ => trivial)

/-- The rest of a run, as an execution from the state it has reached. -/
def drop (R : Run m) (n : ℕ) {P : State → Prop} (h : P (R.state n)) : Run ⟨P, m.next⟩ where
  input := fun t => R.input (n + t)
  state := fun t => R.state (n + t)
  init := h
  step := fun t => R.step (n + t)

/-! ## Ghost state and events -/

/-- A ghost value that watches the run. -/
def observe (R : Run m) (g₀ : Ghost) (watch : In → State → Ghost → Ghost) : ℕ → Ghost
  | 0 => g₀
  | t + 1 => watch (R.input t) (R.state t) (R.observe g₀ watch t)

theorem observe_invariant (R : Run m) (g₀ : Ghost) (watch : In → State → Ghost → Ghost)
    (P : State → Ghost → Prop)
    (hinit : ∀ s, m.init s → P s g₀)
    (hstep : ∀ i s g, P s g → P (m.next i s) (watch i s g)) :
    ∀ t, P (R.state t) (R.observe g₀ watch t) := by
  intro t
  induction t with
  | zero => exact hinit _ R.init
  | succ t ih =>
    rw [R.step t]
    exact hstep _ _ _ ih

/-- A measure that no observed cycle lowers grows along the run. -/
theorem observe_mono (R : Run m) (g₀ : Ghost) (watch : In → State → Ghost → Ghost)
    (measure : Ghost → ℕ) (hstep : ∀ i s g, measure g ≤ measure (watch i s g)) {t u : ℕ}
    (h : t ≤ u) : measure (R.observe g₀ watch t) ≤ measure (R.observe g₀ watch u) := by
  induction u, h using Nat.le_induction with
  | base => exact Nat.le_refl _
  | succ u _ ih => exact ih.trans (hstep _ _ _)

/-- The events of the first `n` cycles, in order. -/
def events {E : Type} (R : Run m) (event : In → State → Option E) : ℕ → List E
  | 0 => []
  | n + 1 => R.events event n ++ (event (R.input n) (R.state n)).toList

theorem mem_events {E : Type} (R : Run m) {event : In → State → Option E} {a : E} {n : ℕ}
    (h : a ∈ R.events event n) : ∃ t, event (R.input t) (R.state t) = some a := by
  induction n with
  | zero => cases h
  | succ n ih =>
    rcases List.mem_append.mp h with hbefore | hnow
    · exact ih hbefore
    · exact ⟨n, Option.mem_toList.mp hnow⟩

/-- When a ghost address predicts each event and is then moved to the event's own
successor, the events form one chain that starts at the initial address. -/
theorem events_chain {E X : Type} (R : Run m) (event : In → State → Option E) (site succ : E → X)
    (expected : ℕ → X)
    (hnone : ∀ t, event (R.input t) (R.state t) = none → expected (t + 1) = expected t)
    (hsome : ∀ t a, event (R.input t) (R.state t) = some a →
      site a = expected t ∧ expected (t + 1) = succ a) :
    ∀ n, (∀ a ∈ (R.events event n).head?, site a = expected 0) ∧
      (R.events event n).IsChain (fun a b => site b = succ a) := by
  suffices h : ∀ n, (∀ a ∈ (R.events event n).head?, site a = expected 0) ∧
      (R.events event n).IsChain (fun a b => site b = succ a) ∧
      expected n = ((R.events event n).getLast?.map succ).getD (expected 0) from
    fun n => ⟨(h n).1, (h n).2.1⟩
  intro n
  induction n with
  | zero => simp [events]
  | succ n ih =>
    rcases ih with ⟨hhead, hchain, hlast⟩
    cases hev : event (R.input n) (R.state n) with
    | none =>
      rw [hnone n hev]
      simpa [events, hev] using ⟨hhead, hchain, hlast⟩
    | some a =>
      rcases hsome n a hev with ⟨hat, hsucc⟩
      refine ⟨?_, ?_, ?_⟩
      · -- the new event is the first one exactly when there was none before
        cases hE : R.events event n with
        | nil =>
          rw [hE] at hlast
          simpa [events, hev, hE, hlast] using hat
        | cons b E =>
          rw [hE] at hhead
          simpa [events, hev, hE] using hhead
      · simp only [events, hev, Option.toList_some]
        refine List.isChain_append.mpr ⟨hchain, List.isChain_singleton _, ?_⟩
        intro b hb c hc
        rw [hb] at hlast
        have hc : a = c := by simpa using hc
        rw [← hc, hat, hlast]
        rfl
      · simp [events, hev, hsucc]

end Run

end Hdl
end Jyd
