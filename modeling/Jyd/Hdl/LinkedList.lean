import Mathlib.Logic.Function.Basic
import Mathlib.Data.List.Nodup

/-!
# LinkedList — singly linked lists in a memory of cells

A node is an address; its cell holds the address of the next node.  `relink` is the
effect of visiting the nodes in order and pointing each one to its predecessor.
-/

namespace Jyd
namespace Hdl
namespace LinkedList

variable {Addr Cell : Type} (null : Addr) (cell : Addr → Cell)

/-- `a` is the head of the list with the given nodes. -/
def Linked (mem : Cell → Addr) : Addr → List Addr → Prop
  | a, [] => a = null
  | a, x :: xs => a = x ∧ x ≠ null ∧ Linked mem (mem (cell x)) xs

instance Linked.decidable [DecidableEq Addr] (mem : Cell → Addr) :
    ∀ (a : Addr) (nodes : List Addr), Decidable (Linked null cell mem a nodes)
  | a, [] => inferInstanceAs (Decidable (a = null))
  | a, x :: xs =>
    have := Linked.decidable mem (mem (cell x)) xs
    inferInstanceAs (Decidable (a = x ∧ x ≠ null ∧ Linked null cell mem (mem (cell x)) xs))

/-- The last node, or `prev` when there is none. -/
def lastNode (prev : Addr) : List Addr → Addr
  | [] => prev
  | x :: xs => lastNode x xs

variable {null cell} {mem : Cell → Addr} {a prev : Addr} {nodes : List Addr}

theorem lastNode_eq_getLast (hne : nodes ≠ []) : lastNode prev nodes = nodes.getLast hne := by
  induction nodes generalizing prev with
  | nil => exact absurd rfl hne
  | cons x xs ih =>
    cases xs with
    | nil => rfl
    | cons y ys => exact @ih x (List.cons_ne_nil y ys)

/-- A list that does not start with null has its head as a node. -/
theorem Linked.head_mem (h : Linked null cell mem a nodes) (ha : a ≠ null) : a ∈ nodes := by
  cases nodes with
  | nil => exact absurd h ha
  | cons x xs =>
    rw [h.1]
    exact List.mem_cons_self

theorem Linked.eq_nil (h : Linked null cell mem null nodes) : nodes = [] := by
  cases nodes with
  | nil => rfl
  | cons x xs => exact absurd h.1.symm h.2.1

variable [DecidableEq Cell] (cell)

/-- Point each node to the one before it, the first one to `prev`. -/
def relink (mem : Cell → Addr) (prev : Addr) : List Addr → Cell → Addr
  | [] => mem
  | x :: xs => relink (Function.update mem (cell x) prev) x xs

variable {cell}

/-- Writing a cell that is no node of the list keeps the list. -/
theorem Linked.update (h : Linked null cell mem a nodes) {k : Cell} (v : Addr)
    (hk : ∀ x ∈ nodes, cell x ≠ k) : Linked null cell (Function.update mem k v) a nodes := by
  induction nodes generalizing a with
  | nil => exact h
  | cons x xs ih =>
    rcases h with ⟨rfl, hx, hrest⟩
    refine ⟨rfl, hx, ?_⟩
    have hcell : cell a ≠ k := hk a List.mem_cons_self
    rw [Function.update_of_ne hcell]
    exact ih hrest (fun y hy => hk y (List.mem_cons_of_mem _ hy))

/-- Only the cells of the nodes change. -/
theorem relink_of_ne {k : Cell} (hk : ∀ x ∈ nodes, cell x ≠ k) :
    relink cell mem prev nodes k = mem k := by
  induction nodes generalizing mem prev with
  | nil => rfl
  | cons x xs ih =>
    have hx : k ≠ cell x := fun heq => hk x List.mem_cons_self heq.symm
    calc relink cell mem prev (x :: xs) k
        = Function.update mem (cell x) prev k :=
          ih (fun y hy => hk y (List.mem_cons_of_mem _ hy))
      _ = mem k := Function.update_of_ne hx _ _

/-- Every node points to its predecessor. -/
theorem relink_node (hnodup : (nodes.map cell).Nodup) {n : ℕ} (hn : n < nodes.length) :
    relink cell mem prev nodes (cell nodes[n]) =
      (prev :: nodes).get ⟨n, Nat.lt_succ_of_lt hn⟩ := by
  induction nodes generalizing mem prev n with
  | nil => exact absurd hn (Nat.not_lt_zero n)
  | cons x xs ih =>
    rw [List.map_cons, List.nodup_cons] at hnodup
    cases n with
    | zero =>
      have hfresh : ∀ y ∈ xs, cell y ≠ cell x := fun y hy heq =>
        hnodup.1 (heq ▸ List.mem_map_of_mem hy)
      calc relink cell mem prev (x :: xs) (cell x)
          = Function.update mem (cell x) prev (cell x) := relink_of_ne hfresh
        _ = prev := Function.update_self _ _ _
    | succ n => exact ih hnodup.2 (Nat.lt_of_succ_lt_succ hn)

end LinkedList
end Hdl
end Jyd
