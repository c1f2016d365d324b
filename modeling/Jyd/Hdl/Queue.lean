import Jyd.Hdl.Signal

/-!
# Queue — a first-in first-out buffer of fixed depth

The queue accepts an item whenever it is not full and offers the oldest one whenever it
is not empty; both may happen in the same cycle.
-/

namespace Jyd
namespace Hdl

structure Queue (α : Type) (entries : ℕ) where
  items : List α
  bound : items.length ≤ entries

namespace Queue

variable {α : Type} {entries : ℕ}

def empty : Queue α entries := ⟨[], Nat.zero_le _⟩

variable (q : Queue α entries)

def count : ℕ := q.items.length

def enqReady : Bool := decide (q.count < entries)

def next (enq : Valid α) (deqReady : Bool) : Queue α entries where
  items :=
    (if deqReady then q.items.tail else q.items) ++
      (if enq.valid && q.enqReady then [enq.bits] else [])
  bound := by
    have hold : (if deqReady then q.items.tail else q.items).length ≤ q.items.length := by
      split
      · simp
      · exact Nat.le_refl _
    have hq := q.bound
    cases h : (enq.valid && q.enqReady) with
    | true =>
      have hroom : q.items.length < entries :=
        of_decide_eq_true (Bool.and_eq_true_iff.mp h).2
      simp only [List.length_append, if_true, List.length_singleton]
      omega
    | false =>
      simp only [Bool.false_eq_true, if_false, List.append_nil]
      omega

variable {q} {enq : Valid α}

theorem items_next_enq (hv : enq.valid = true) (hroom : q.count < entries) :
    (q.next enq false).items = q.items ++ [enq.bits] := by
  simp [next, hv, enqReady, hroom]

theorem items_next_deq (hv : enq.valid = false) (deqReady : Bool) :
    (q.next enq deqReady).items = if deqReady then q.items.tail else q.items := by
  simp [next, hv]

end Queue
end Hdl
end Jyd
