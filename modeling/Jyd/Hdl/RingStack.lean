import Mathlib.Data.ZMod.Basic
import Mathlib.Tactic.Ring

/-!
# RingStack — a bounded stack in a circular buffer

A stack of at most `n` entries that forgets its oldest entry when it overflows, and its
implementation by `n` cells, a wrapping pointer to the next free cell and a saturating count.
-/

namespace Jyd
namespace Hdl

/-! ## The stack -/

/-- The newest entry comes first. -/
structure BoundedStack (n : ℕ) (α : Type) where
  items : List α
  bound : items.length ≤ n

namespace BoundedStack

variable {n : ℕ} {α : Type}

@[ext]
theorem ext {s t : BoundedStack n α} (h : s.items = t.items) : s = t := by
  cases s
  cases t
  congr

def empty : BoundedStack n α := ⟨[], Nat.zero_le n⟩

def push (s : BoundedStack n α) (x : α) : BoundedStack n α :=
  ⟨(x :: s.items).take n, List.length_take_le n _⟩

/-- Nothing happens to an empty stack. -/
def pop (s : BoundedStack n α) : BoundedStack n α :=
  ⟨s.items.tail, (List.length_tail ▸ Nat.sub_le _ 1).trans s.bound⟩

end BoundedStack

/-! ## The circular buffer -/

structure RingStack (n : ℕ) (α : Type) where
  entries : ZMod n → α
  ptr : ZMod n
  count : ℕ
  bound : count ≤ n

namespace RingStack

variable {n : ℕ} {α : Type}

def push (s : RingStack n α) (x : α) : RingStack n α where
  entries := Function.update s.entries s.ptr x
  ptr := s.ptr + 1
  count := if s.count = n then s.count else s.count + 1
  bound := by
    have hs := s.bound
    split <;> omega

def pop (s : RingStack n α) : RingStack n α :=
  if s.count = 0 then s
  else ⟨s.entries, s.ptr - 1, s.count - 1, (Nat.sub_le _ 1).trans s.bound⟩

/-- The cells below the pointer, as far as they count. -/
def contents (s : RingStack n α) : BoundedStack n α :=
  ⟨(List.range s.count).map fun k : ℕ => s.entries (s.ptr - 1 - (k : ZMod n)), by simpa using s.bound⟩

variable (s : RingStack n α)

theorem length_contents : s.contents.items.length = s.count := by
  simp [contents]

theorem head_contents (h : s.count ≠ 0) : s.contents.items.head? = some (s.entries (s.ptr - 1)) := by
  obtain ⟨c, hc⟩ := Nat.exists_eq_succ_of_ne_zero h
  simp [contents, hc, List.range_succ_eq_map]

theorem contents_pop : s.pop.contents = s.contents.pop := by
  apply BoundedStack.ext
  rw [pop, BoundedStack.pop]
  split
  · rename_i hzero
    simp [contents, hzero]
  · rename_i hpos
    obtain ⟨c, hc⟩ := Nat.exists_eq_succ_of_ne_zero hpos
    -- the cell behind the new pointer is the second one of the old stack
    simp only [contents, hc, Nat.succ_sub_one, List.range_succ_eq_map, List.map_cons, List.map_map,
      List.tail_cons]
    refine List.map_congr_left fun k _ => ?_
    simp only [Function.comp_apply, Nat.succ_eq_add_one]
    congr 1
    push_cast
    ring

/-- A cell behind the newest one is not the cell that a push overwrites. -/
theorem ptr_sub_ne {k : ℕ} (hpos : 0 < k) (hlt : k < n) : s.ptr - (k : ZMod n) ≠ s.ptr := by
  intro h
  have hzero : (k : ZMod n) = 0 := by
    have hsub := congrArg (fun p => s.ptr - p) h
    simpa using hsub
  have hdvd := (ZMod.natCast_eq_zero_iff k n).mp hzero
  exact absurd (Nat.le_of_dvd hpos hdvd) (Nat.not_le.mpr hlt)

theorem contents_push (x : α) : (s.push x).contents = s.contents.push x := by
  apply BoundedStack.ext
  have hs := s.bound
  apply List.ext_getElem
  · simp only [length_contents, BoundedStack.push, push, List.length_take, List.length_cons]
    split <;> omega
  · intro k hk _
    have hcount : k < (s.push x).count := by simpa [length_contents] using hk
    have hlt : k < n := lt_of_lt_of_le hcount (s.push x).bound
    simp only [contents, BoundedStack.push, push, List.getElem_map, List.getElem_range,
      List.getElem_take, add_sub_cancel_right]
    cases k with
    | zero => simp
    | succ k =>
      -- a full buffer loses the cell under the pointer, which is its oldest one
      have hne := s.ptr_sub_ne (Nat.succ_pos k) hlt
      rw [Function.update_of_ne hne, List.getElem_cons_succ, List.getElem_map, List.getElem_range]
      congr 1
      push_cast
      ring

end RingStack

end Hdl
end Jyd
