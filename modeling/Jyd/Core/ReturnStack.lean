import Jyd.Core.BranchPredictor
import Jyd.Hdl.Machine
import Jyd.Hdl.RingStack
import Mathlib.Algebra.Field.ZMod

/-!
# ReturnStack — the return-address predictor as a bounded stack

Two entries, a one-bit pointer and a two-bit count keep the return addresses of the last two
calls.  A third call overwrites the older one, and a return with nothing left changes nothing.
-/

namespace Jyd
namespace Core
namespace BranchPredictor

open Hdl

/-! ## What the predictor is meant to keep -/

/-- A call pushes the address behind it, a return takes the newest address away. -/
def stackStep (u : Update) (s : BoundedStack 2 Word) : BoundedStack 2 Word :=
  if u.en then
    if u.isCall then s.push (u.pc + 4)
    else if u.isReturn then s.pop
    else s
  else s

/-- The predictor alone, under arbitrary updates. -/
def machine : Machine Update Regs where
  init := fun r => (∀ k, r.rasEntries k = 0) ∧ r.rasPtr = false ∧ r.rasCount = 0
  next := fun u r => next r u

/-! ## The registers as a circular buffer -/

/-- The one-bit pointer as a residue. -/
def ofPtr (b : Bool) : ZMod 2 := if b then 1 else 0

theorem ofPtr_not (b : Bool) : ofPtr (!b) = ofPtr b + 1 := by
  cases b <;> decide

/-- One step back is one step forward. -/
theorem ofPtr_not' (b : Bool) : ofPtr (!b) = ofPtr b - 1 := by
  cases b <;> decide

theorem ofPtr_inj {a b : Bool} (h : ofPtr a = ofPtr b) : a = b := by
  revert h
  cases a <;> cases b <;> decide

structure Represents (r : Regs) (s : RingStack 2 Word) : Prop where
  entries : ∀ k, r.rasEntries k = s.entries (ofPtr k)
  ptr : ofPtr r.rasPtr = s.ptr
  count : r.rasCount.toNat = s.count

variable {r : Regs} {s : RingStack 2 Word}

theorem Represents.push (h : Represents r s) {u : Update} (hen : u.en = true)
    (hcall : u.isCall = true) : Represents (next r u) (s.push (u.pc + 4)) := by
  have hnext : next r u =
      { rasEntries := Function.update r.rasEntries r.rasPtr (u.pc + 4)
        rasPtr := !r.rasPtr
        rasCount := if r.rasCount == 2#2 then r.rasCount else r.rasCount + 1 } := by
    simp [next, hen, hcall]
  rw [hnext]
  refine ⟨?_, ?_, ?_⟩
  · intro k
    show Function.update r.rasEntries r.rasPtr (u.pc + 4) k =
      Function.update s.entries s.ptr (u.pc + 4) (ofPtr k)
    by_cases hk : k = r.rasPtr
    · rw [hk, ← h.ptr, Function.update_self, Function.update_self]
    · have hne : ofPtr k ≠ s.ptr := fun heq => hk (ofPtr_inj (heq.trans h.ptr.symm))
      rw [Function.update_of_ne hk, Function.update_of_ne hne, h.entries]
  · show ofPtr (!r.rasPtr) = s.ptr + 1
    rw [ofPtr_not, h.ptr]
  · -- the count saturates at two, so the two-bit sum does not wrap
    have hbound := s.bound
    have hcount := h.count
    show (if r.rasCount == 2#2 then r.rasCount else r.rasCount + 1).toNat =
      if s.count = 2 then s.count else s.count + 1
    by_cases htwo : r.rasCount = 2#2
    · have hs : s.count = 2 := by rw [← hcount, htwo]; rfl
      simp [htwo, hs]
    · have hs : s.count ≠ 2 := by
        rw [← hcount]
        exact fun heq => htwo (BitVec.eq_of_toNat_eq heq)
      have hlt : r.rasCount.toNat + 1 < 4 := by omega
      simp [htwo, hs, hcount]
      omega

theorem Represents.pop (h : Represents r s) {u : Update} (hen : u.en = true)
    (hcall : u.isCall = false) (hret : u.isReturn = true) : Represents (next r u) s.pop := by
  by_cases hzero : r.rasCount = 0#2
  · have hs : s.count = 0 := by rw [← h.count, hzero]; rfl
    have hnext : next r u = r := by simp [next, hen, hcall, hzero]
    rw [hnext, RingStack.pop, if_pos hs]
    exact h
  · have hs : s.count ≠ 0 := by
      rw [← h.count]
      exact fun heq => hzero (BitVec.eq_of_toNat_eq heq)
    have hnext : next r u = { r with rasPtr := !r.rasPtr, rasCount := r.rasCount - 1 } := by
      simp [next, hen, hcall, hret, hzero]
    rw [hnext, RingStack.pop, if_neg hs]
    refine ⟨h.entries, ?_, ?_⟩
    · show ofPtr (!r.rasPtr) = s.ptr - 1
      rw [ofPtr_not', h.ptr]
    · have hone : 1#2 ≤ r.rasCount := by
        have hcount := h.count
        show 1 ≤ r.rasCount.toNat
        omega
      show (r.rasCount - 1#2).toNat = s.count - 1
      rw [BitVec.toNat_sub_of_le hone, h.count]
      rfl

/-! ## Refinement -/

/-- The registers hold the stack `t`. -/
def Refines (r : Regs) (t : BoundedStack 2 Word) : Prop :=
  ∃ s : RingStack 2 Word, Represents r s ∧ s.contents = t

theorem Refines.next {t : BoundedStack 2 Word} (h : Refines r t) (u : Update) :
    Refines (next r u) (stackStep u t) := by
  rcases h with ⟨s, hrep, rfl⟩
  have hsame : u.en = false ∨ (u.isCall = false ∧ u.isReturn = false) →
      Refines (BranchPredictor.next r u) (stackStep u s.contents) := by
    intro hno
    have hregs : BranchPredictor.next r u = r := by
      rcases hno with hen | ⟨hcall, hret⟩
      · simp [BranchPredictor.next, hen]
      · simp [BranchPredictor.next, hcall, hret]
    have hstack : stackStep u s.contents = s.contents := by
      rcases hno with hen | ⟨hcall, hret⟩
      · simp [stackStep, hen]
      · simp [stackStep, hcall, hret]
    rw [hregs, hstack]
    exact ⟨s, hrep, rfl⟩
  cases hen : u.en with
  | false => exact hsame (Or.inl hen)
  | true =>
    cases hcall : u.isCall with
    | true =>
      have hstack : stackStep u s.contents = s.contents.push (u.pc + 4) := by
        simp [stackStep, hen, hcall]
      exact ⟨s.push (u.pc + 4), hrep.push hen hcall, by rw [hstack, s.contents_push]⟩
    | false =>
      cases hret : u.isReturn with
      | true =>
        have hstack : stackStep u s.contents = s.contents.pop := by
          simp [stackStep, hen, hcall, hret]
        exact ⟨s.pop, hrep.pop hen hcall hret, by rw [hstack, s.contents_pop]⟩
      | false => exact hsame (Or.inr ⟨hcall, hret⟩)

theorem refines_of_init (h : machine.init r) : Refines r BoundedStack.empty := by
  rcases h with ⟨hentries, hptr, hcount⟩
  refine ⟨⟨fun _ => 0, 0, 0, Nat.zero_le 2⟩, ⟨hentries, ?_, ?_⟩, rfl⟩
  · rw [hptr]
    rfl
  · rw [hcount]
    rfl

theorem Refines.count {t : BoundedStack 2 Word} (h : Refines r t) :
    r.rasCount.toNat = t.items.length := by
  rcases h with ⟨s, hrep, rfl⟩
  rw [hrep.count, s.length_contents]

theorem Refines.rasTop {t : BoundedStack 2 Word} (h : Refines r t) {top : Word}
    (htop : t.items.head? = some top) : rasTop r = top := by
  have hcount := h.count
  rcases h with ⟨s, hrep, rfl⟩
  have hne : s.count ≠ 0 := by
    intro hzero
    rw [s.length_contents, hzero] at hcount
    simp [RingStack.contents, hzero] at htop
  rw [s.head_contents hne, Option.some_inj] at htop
  rw [BranchPredictor.rasTop, hrep.entries, ofPtr_not', hrep.ptr, htop]

/-- The address that the fetch stage makes of a predicted target. -/
def fetchAddress (target : Word) : Word := 0x80#8 ++ 0#2 ++ target.extractLsb' 2 20 ++ 0#2

/-- While there is an entry, a return that hits in the BTB is predicted to go to it. -/
theorem Refines.pred {t : BoundedStack 2 Word} (h : Refines r t) {top : Word}
    (htop : t.items.head? = some top) (pc : Word) {q : BTB.Query} (hret : q.isReturn = true)
    (hhit : q.hit = true) :
    (pred r pc q).take = true ∧ (pred r pc q).pc = fetchAddress top := by
  have hne : r.rasCount ≠ 0#2 := by
    intro hzero
    have hcount := h.count
    rw [hzero] at hcount
    rw [List.length_eq_zero_iff.mp hcount.symm] at htop
    exact nomatch htop
  have huse : useRas r q = true := by simp [useRas, hret, hhit, hne]
  simp [BranchPredictor.pred, take, huse, h.rasTop htop, fetchAddress]

/-- After any updates the registers hold the return addresses of the last calls that have not
returned, two at most, and returns are predicted to the newest one. -/
theorem ras_refines_stack (R : Run machine) (t : ℕ) :
    let stack := R.observe BoundedStack.empty (fun u _ s => stackStep u s) t
    Refines (R.state t) stack ∧
    (R.state t).rasCount.toNat = stack.items.length ∧ stack.items.length ≤ 2 ∧
    ∀ top, stack.items.head? = some top →
      rasTop (R.state t) = top ∧
      ∀ pc q, q.isReturn = true → q.hit = true →
        (pred (R.state t) pc q).take = true ∧ (pred (R.state t) pc q).pc = fetchAddress top := by
  intro stack
  have h : Refines (R.state t) stack :=
    R.observe_invariant BoundedStack.empty (fun u _ s => stackStep u s) Refines
      (fun _ => refines_of_init) (fun u _ _ href => href.next u) t
  refine ⟨h, h.count, stack.bound, ?_⟩
  intro top htop
  exact ⟨h.rasTop htop, fun pc q hret hhit => h.pred htop pc hret hhit⟩

end BranchPredictor
end Core
end Jyd
