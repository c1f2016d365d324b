import Mathlib.Data.List.Basic

/-!
# SpecQueue — speculative fetch queues with a one-bit epoch

The instructions in flight between fetch and execute, oldest first.  Each packet
remembers the address that was fetched behind it; a packet that is already known
to redirect remembers nothing.  `Running` says that the packets of the current
epoch continue the executed program, and that only older packets are stale.
-/

namespace Jyd
namespace Hdl

structure Packet (α : Type) where
  epoch : Bool
  pc : α
  /-- Where the younger packets continue. -/
  next : Option α
  deriving DecidableEq, Repr

namespace Packet

variable {α : Type}

/-- `q` is the same packet as `p`, possibly after its prediction has been withdrawn. -/
structure Weaker (p q : Packet α) : Prop where
  epoch : q.epoch = p.epoch
  pc : q.pc = p.pc
  next : q.next = none ∨ q.next = p.next

theorem Weaker.refl (p : Packet α) : Weaker p p :=
  ⟨rfl, rfl, Or.inr rfl⟩

end Packet

namespace SpecQueue

variable {α : Type} {e : Bool} {x : Option α} {q q' : List (Packet α)} {fetch : α}

/-! ## The chain of predicted addresses -/

/-- From the expected address `x`, the packets follow one another up to the next fetch. -/
def Chain : Option α → List (Packet α) → α → Prop
  | x, [], fetch => ∀ a, x = some a → fetch = a
  | x, p :: q, fetch => (∀ a, x = some a → p.pc = a) ∧ Chain p.next q fetch

theorem Chain.push {f : α} (h : Chain x q fetch) :
    Chain x (q ++ [⟨e, fetch, some f⟩]) f := by
  induction q generalizing x with
  | nil =>
    refine ⟨h, ?_⟩
    intro a ha
    simpa using ha
  | cons p q ih => exact ⟨h.1, ih h.2⟩

theorem Chain.of_none (h : Chain x q fetch) (y : Option α) (hy : y = none ∨ y = x) :
    Chain y q fetch := by
  rcases hy with rfl | rfl
  · cases q with
    | nil =>
      intro a ha
      cases ha
    | cons p q =>
      refine ⟨?_, h.2⟩
      intro a ha
      cases ha
  · exact h

/-! ## Stale and live packets -/

def live (e : Bool) (q : List (Packet α)) : List (Packet α) :=
  q.filter (fun p => p.epoch == e)

/-- Nothing stale is younger than a live packet. -/
def Ordered (e : Bool) (q : List (Packet α)) : Prop :=
  q.Pairwise (fun p p' => p.epoch = e → p'.epoch = e)

def AllEpoch (e : Bool) (q : List (Packet α)) : Prop :=
  ∀ p ∈ q, p.epoch = e

theorem AllEpoch.push {p : Packet α} (h : AllEpoch e q) (hp : p.epoch = e) :
    AllEpoch e (q ++ [p]) := by
  intro p' hp'
  rcases List.mem_append.mp hp' with hq | hlast
  · exact h p' hq
  · rw [List.mem_singleton.mp hlast]
    exact hp

theorem live_of_stale (h : AllEpoch (!e) q) : live e q = [] := by
  refine List.filter_eq_nil_iff.mpr ?_
  intro p hp
  simp [h p hp]

/-! ## Movement inside the pipeline -/

/-- One edge inside the pipeline: packets move on, may lose their prediction, and
those that satisfy `D` may be discarded. -/
inductive Moves (D : Packet α → Prop) : List (Packet α) → List (Packet α) → Prop
  | nil : Moves D [] []
  | keep {p p' : Packet α} {q q' : List (Packet α)} :
      Packet.Weaker p p' → Moves D q q' → Moves D (p :: q) (p' :: q')
  | drop {p : Packet α} {q q' : List (Packet α)} : D p → Moves D q q' → Moves D (p :: q) q'

variable {D : Packet α → Prop}

theorem Moves.refl : ∀ q : List (Packet α), Moves D q q
  | [] => Moves.nil
  | p :: q => Moves.keep (Packet.Weaker.refl p) (Moves.refl q)

theorem Moves.append {q₁ q₁' q₂ q₂' : List (Packet α)} (h₁ : Moves D q₁ q₁')
    (h₂ : Moves D q₂ q₂') : Moves D (q₁ ++ q₂) (q₁' ++ q₂') := by
  induction h₁ with
  | nil => exact h₂
  | keep hw _ ih => exact Moves.keep hw ih
  | drop hd _ ih => exact Moves.drop hd ih

/-- Every packet that is still there was there before. -/
theorem Moves.epoch_mem (h : Moves D q q') {p' : Packet α} (hp' : p' ∈ q') :
    ∃ p ∈ q, p'.epoch = p.epoch := by
  induction h with
  | nil => cases hp'
  | keep hw _ ih =>
    rcases List.mem_cons.mp hp' with rfl | hp'
    · exact ⟨_, List.mem_cons_self, hw.epoch⟩
    · rcases ih hp' with ⟨p, hp, he⟩
      exact ⟨p, List.mem_cons_of_mem _ hp, he⟩
  | drop _ _ ih =>
    rcases ih hp' with ⟨p, hp, he⟩
    exact ⟨p, List.mem_cons_of_mem _ hp, he⟩

theorem Moves.allEpoch (h : Moves D q q') (hq : AllEpoch e q) : AllEpoch e q' := by
  intro p' hp'
  rcases h.epoch_mem hp' with ⟨p, hp, he⟩
  rw [he]
  exact hq p hp

theorem Moves.ordered (h : Moves D q q') (hq : Ordered e q) : Ordered e q' := by
  induction h with
  | nil => exact hq
  | keep hw hm ih =>
    rcases List.pairwise_cons.mp hq with ⟨hhead, htail⟩
    refine List.pairwise_cons.mpr ⟨?_, ih htail⟩
    intro b hb hlive
    rcases hm.epoch_mem hb with ⟨b₀, hb₀, he⟩
    rw [he]
    exact hhead b₀ hb₀ (hw.epoch ▸ hlive)
  | drop _ _ ih => exact ih (List.pairwise_cons.mp hq).2

/-- Discarding stale packets keeps the chain of the live ones. -/
theorem Moves.chain (h : Moves (fun p => p.epoch ≠ e) q q') (hq : Chain x (live e q) fetch) :
    Chain x (live e q') fetch := by
  induction h generalizing x with
  | nil => exact hq
  | @keep p p' q q' hw _ ih =>
    by_cases hp : p.epoch = e
    · have hp' : p'.epoch = e := hw.epoch.trans hp
      simp only [live, List.filter_cons, hp, hp', beq_self_eq_true, if_true] at hq ⊢
      refine ⟨?_, ih (hq.2.of_none _ hw.next)⟩
      intro a ha
      rw [hw.pc]
      exact hq.1 a ha
    · have hp' : p'.epoch ≠ e := by
        rw [hw.epoch]
        exact hp
      simp only [live, List.filter_cons, beq_iff_eq, hp, hp', if_false] at hq ⊢
      exact ih hq
  | @drop p q q' hd _ ih =>
    have hp : ¬ p.epoch = e := hd
    simp only [live, List.filter_cons, beq_iff_eq, hp, if_false] at hq
    exact ih hq

/-! ## The running queue -/

/-- The live packets continue the program from `expected`; stale ones only precede them. -/
structure Running (e : Bool) (q : List (Packet α)) (expected : Option α) (fetch : α) : Prop where
  ordered : Ordered e q
  chain : Chain expected (live e q) fetch

theorem Running.moves (h : Running e q x fetch) (hm : Moves (fun p => p.epoch ≠ e) q q') :
    Running e q' x fetch :=
  ⟨hm.ordered h.ordered, hm.chain h.chain⟩

theorem Running.push {f : α} (h : Running e q x fetch) :
    Running e (q ++ [⟨e, fetch, some f⟩]) x f := by
  constructor
  · refine List.pairwise_append.mpr ⟨h.ordered, List.pairwise_singleton _ _, ?_⟩
    intro _ _ b hb _
    rw [List.mem_singleton.mp hb]
  · have hlive : live e (q ++ [⟨e, fetch, some f⟩]) = live e q ++ [⟨e, fetch, some f⟩] := by
      simp [live]
    rw [hlive]
    exact h.chain.push

/-- Taking the oldest packet, which is live: it has the expected address, all that is
left is live too, and the program continues where it was predicted to. -/
theorem Running.take {p : Packet α} (h : Running e (p :: q) x fetch) (hp : p.epoch = e) :
    (∀ a, x = some a → p.pc = a) ∧ AllEpoch e q ∧ Running e q p.next fetch := by
  rcases List.pairwise_cons.mp h.ordered with ⟨hhead, htail⟩
  have hchain := h.chain
  simp only [live, List.filter_cons, hp, beq_self_eq_true, if_true] at hchain
  exact ⟨hchain.1, fun b hb => hhead b hb hp, htail, hchain.2⟩

/-- The first fetch of a new epoch, behind stale packets only. -/
theorem Running.restart {target f : α} (h : AllEpoch (!e) q) :
    Running e (q ++ [⟨e, target, some f⟩]) (some target) f := by
  have hempty : Running e q (some target) target := by
    constructor
    · refine List.Pairwise.imp_of_mem ?_
        (List.pairwise_of_forall (R := fun _ _ => True) (fun _ _ => trivial))
      intro p _ hp _ _ hlive
      rw [h p hp] at hlive
      cases e <;> cases hlive
    · rw [live_of_stale h]
      intro a ha
      exact Option.some.inj ha
  exact hempty.push

end SpecQueue

end Hdl
end Jyd
