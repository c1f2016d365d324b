import Mathlib.Algebra.BigOperators.Group.Finset.Basic
import Mathlib.Algebra.Group.Action.Defs
import Mathlib.Algebra.Order.BigOperators.Group.Finset
import Mathlib.Data.Finset.SDiff

/-!
# Worklist — the closure of a set of entries under a successor function

Nodes are taken from a stack.  A node that has been reached before, or that is not listed, is
dropped; any other is reached, and its successors are pushed.  The loop ends, and what it has
reached then are the listed nodes that a path of listed nodes leads to.
-/

namespace Jyd
namespace Graph

variable {α : Type}

/-! ## Reachability -/

section Reachability

variable (succs : α → Option (List α)) (entries : List α)

/-- The successors of a node are known exactly when it is listed. -/
def Listed (a : α) : Prop := (succs a).isSome

inductive Reachable : α → Prop
  | entry {a : α} (hentry : a ∈ entries) (hlisted : Listed succs a) : Reachable a
  | step {a b : α} {next : List α} (hpath : Reachable a) (hnext : succs a = some next)
      (hmem : b ∈ next) (hlisted : Listed succs b) : Reachable b

end Reachability

/-! ## The loop -/

/-- The stack, newest node first, and the nodes reached so far. -/
structure Worklist (α : Type) where
  pending : List α
  reached : Finset α

namespace Worklist

variable [DecidableEq α] (succs : α → Option (List α))

/-- One iteration. -/
def step (w : Worklist α) : Worklist α :=
  match w.pending with
  | [] => w
  | a :: rest =>
    if a ∈ w.reached then ⟨rest, w.reached⟩
    else
      match succs a with
      | none => ⟨rest, w.reached⟩
      | some next => ⟨next.reverse ++ rest, insert a w.reached⟩

/-- At most `n` iterations. -/
def run : ℕ → Worklist α → Option (Finset α)
  | 0, _ => none
  | n + 1, w => if w.pending = [] then some w.reached else run n (w.step succs)

def start (entries : List α) : Worklist α := ⟨entries.reverse, ∅⟩

variable {succs} {w : Worklist α}

theorem step_of_empty (succs : α → Option (List α)) (hw : w.pending = []) : w.step succs = w := by
  simp [step, hw]

/-- What an iteration can do. -/
theorem step_cases (succs : α → Option (List α)) {a : α} {rest : List α} (hw : w.pending = a :: rest) :
    ((a ∈ w.reached ∨ succs a = none) ∧ w.step succs = ⟨rest, w.reached⟩) ∨
      ∃ next, a ∉ w.reached ∧ succs a = some next ∧
        w.step succs = ⟨next.reverse ++ rest, insert a w.reached⟩ := by
  simp only [step, hw]
  by_cases ha : a ∈ w.reached
  · exact Or.inl ⟨Or.inl ha, if_pos ha⟩
  · cases hnext : succs a with
    | none => exact Or.inl ⟨Or.inr rfl, by simp [ha]⟩
    | some next => exact Or.inr ⟨next, ha, rfl, by simp [ha]⟩

/-! ## Partial correctness -/

/-- Reached, or about to be. -/
def Covers (w : Worklist α) (a : α) : Prop := a ∈ w.reached ∨ a ∈ w.pending

theorem Covers.step {b : α} (h : w.Covers b) (hlisted : Listed succs b) :
    (w.step succs).Covers b := by
  cases hw : w.pending with
  | nil => rwa [step_of_empty succs hw]
  | cons a rest =>
    rw [Covers, hw, List.mem_cons] at h
    rcases step_cases succs hw with ⟨hdrop, heq⟩ | ⟨next, _, _, heq⟩ <;>
      rw [heq, Covers]
    · rcases h with hreached | rfl | hrest
      · exact Or.inl hreached
      -- a listed node is dropped only when it has been reached before
      · rcases hdrop with hreached | hnone
        · exact Or.inl hreached
        · exact absurd hlisted (by simp [Listed, hnone])
      · exact Or.inr hrest
    · rcases h with hreached | rfl | hrest
      · exact Or.inl (Finset.mem_insert_of_mem hreached)
      · exact Or.inl (Finset.mem_insert_self _ _)
      · exact Or.inr (List.mem_append_right _ hrest)

structure Invariant (succs : α → Option (List α)) (entries : List α) (w : Worklist α) : Prop where
  listed : ∀ a ∈ w.reached, Listed succs a
  sound : ∀ a, w.Covers a → Listed succs a → Reachable succs entries a
  entries : ∀ a ∈ entries, Listed succs a → w.Covers a
  closed : ∀ a ∈ w.reached, ∀ next, succs a = some next → ∀ b ∈ next, Listed succs b → w.Covers b

variable {entries : List α}

omit [DecidableEq α] in
theorem invariant_start : Invariant succs entries (start entries) where
  listed := fun a ha => absurd ha (Finset.notMem_empty a)
  sound := by
    intro a ha hlisted
    rcases ha with ha | ha
    · exact absurd ha (Finset.notMem_empty a)
    · exact .entry (List.mem_reverse.mp ha) hlisted
  entries := fun a ha _ => Or.inr (List.mem_reverse.mpr ha)
  closed := fun a ha => absurd ha (Finset.notMem_empty a)

theorem Invariant.step (h : Invariant succs entries w) :
    Invariant succs entries (w.step succs) := by
  cases hw : w.pending with
  | nil => rwa [step_of_empty succs hw]
  | cons a rest =>
    have hentries : ∀ b ∈ entries, Listed succs b → (w.step succs).Covers b :=
      fun b hb hlisted => (h.entries b hb hlisted).step hlisted
    have hclosed : ∀ b ∈ w.reached, ∀ next, succs b = some next → ∀ c ∈ next, Listed succs c →
        (w.step succs).Covers c :=
      fun b hb next hnext c hc hlisted => (h.closed b hb next hnext c hc hlisted).step hlisted
    have hcovers : ∀ b ∈ rest, w.Covers b := by
      intro b hb
      rw [Covers, hw]
      exact Or.inr (List.mem_cons_of_mem a hb)
    rcases step_cases succs hw with ⟨_, heq⟩ | ⟨next, _, hnext, heq⟩ <;>
      rw [heq] at hentries hclosed ⊢
    · refine ⟨h.listed, ?_, hentries, hclosed⟩
      intro b hb hlisted
      rcases hb with hb | hb
      · exact h.sound b (Or.inl hb) hlisted
      · exact h.sound b (hcovers b hb) hlisted
    · have hlisted : Listed succs a := by simp [Listed, hnext]
      have hreach : Reachable succs entries a := by
        refine h.sound a ?_ hlisted
        rw [Covers, hw]
        exact Or.inr List.mem_cons_self
      refine ⟨?_, ?_, hentries, ?_⟩
      · intro b hb
        rcases Finset.mem_insert.mp hb with rfl | hb
        · exact hlisted
        · exact h.listed b hb
      · intro b hb hlb
        rcases hb with hb | hb
        · rcases Finset.mem_insert.mp hb with rfl | hb
          · exact hreach
          · exact h.sound b (Or.inl hb) hlb
        · rcases List.mem_append.mp hb with hb | hb
          · exact .step hreach hnext (List.mem_reverse.mp hb) hlb
          · exact h.sound b (hcovers b hb) hlb
      · intro b hb nextb hnextb c hc hlc
        rcases Finset.mem_insert.mp hb with rfl | hb
        -- the successors of the node just reached are on the stack
        · obtain rfl : next = nextb := Option.some_inj.mp (hnext.symm.trans hnextb)
          exact Or.inr (List.mem_append_left _ (List.mem_reverse.mpr hc))
        · exact hclosed b hb nextb hnextb c hc hlc

omit [DecidableEq α] in
/-- With nothing left on the stack, exactly the reachable nodes have been reached. -/
theorem Invariant.mem_reached_iff (h : Invariant succs entries w) (hempty : w.pending = []) (a : α) :
    a ∈ w.reached ↔ Reachable succs entries a := by
  have hreached : ∀ b, w.Covers b → b ∈ w.reached := by
    intro b hb
    rcases hb with hb | hb
    · exact hb
    · rw [hempty] at hb
      exact absurd hb List.not_mem_nil
  constructor
  · intro ha
    exact h.sound a (Or.inl ha) (h.listed a ha)
  · intro ha
    induction ha with
    | entry hentry hlisted => exact hreached _ (h.entries _ hentry hlisted)
    | step _ hnext hmem hlisted ih => exact hreached _ (h.closed _ ih _ hnext _ hmem hlisted)

theorem mem_of_run {n : ℕ} {reached : Finset α} (h : Invariant succs entries w)
    (hrun : w.run succs n = some reached) (a : α) :
    a ∈ reached ↔ Reachable succs entries a := by
  induction n generalizing w with
  | zero => exact nomatch hrun
  | succ n ih =>
    rw [run] at hrun
    split at hrun
    · rename_i hempty
      rw [← Option.some_inj.mp hrun]
      exact h.mem_reached_iff hempty a
    · exact ih h.step hrun

/-! ## Termination -/

/-- The iterations that can still follow: one for every node on the stack and one for every
node that can still be pushed. -/
def work (succs : α → Option (List α)) (nodes : Finset α) (w : Worklist α) : ℕ :=
  w.pending.length + ∑ a ∈ nodes \ w.reached, ((succs a).getD []).length

variable {nodes : Finset α}

theorem work_step (hnodes : ∀ a, Listed succs a → a ∈ nodes) (hw : w.pending ≠ []) :
    (w.step succs).work succs nodes + 1 = w.work succs nodes := by
  cases hpending : w.pending with
  | nil => exact absurd hpending hw
  | cons a rest =>
    rcases step_cases succs hpending with ⟨_, heq⟩ | ⟨next, hnew, hnext, heq⟩
    · simp only [work, heq, hpending, List.length_cons]
      omega
    · -- the successors move from the second summand to the first one
      have hmem : a ∈ nodes \ w.reached :=
        Finset.mem_sdiff.mpr ⟨hnodes a (by simp [Listed, hnext]), hnew⟩
      have hsum := Finset.add_sum_erase (nodes \ w.reached)
        (fun b => ((succs b).getD []).length) hmem
      rw [← Finset.sdiff_insert] at hsum
      simp only [work, heq, hpending, List.length_append, List.length_reverse, List.length_cons]
      simp only [hnext, Option.getD_some] at hsum
      omega

/-- Each of the nodes is expanded once, with `d` successors at most. -/
theorem work_start_le {d : ℕ} (hdegree : ∀ a, ((succs a).getD []).length ≤ d) :
    (start entries).work succs nodes ≤ entries.length + nodes.card * d := by
  have hsum := Finset.sum_le_card_nsmul nodes (fun a => ((succs a).getD []).length) d
    (fun a _ => hdegree a)
  simpa [work, start] using hsum

theorem exists_run (hnodes : ∀ a, Listed succs a → a ∈ nodes) {n : ℕ}
    (hn : w.work succs nodes < n) : ∃ reached, w.run succs n = some reached := by
  induction n generalizing w with
  | zero => exact absurd hn (Nat.not_lt_zero _)
  | succ n ih =>
    rw [run]
    split
    · exact ⟨_, rfl⟩
    · rename_i hpending
      have hstep := work_step hnodes hpending
      exact ih (by omega)

end Worklist

end Graph
end Jyd
