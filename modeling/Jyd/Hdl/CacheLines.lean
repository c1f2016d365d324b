import Mathlib.Logic.Function.Basic

/-!
# CacheLines — coherence of a direct-mapped cache

A line is selected by the index of an address and matched by its tag.  A set of
addresses is fit for the cache when index and tag determine the memory cell, and
when one cell is never reached through two lines.  Coherence is then kept by every
line write that agrees with the memory, together with the memory write of its cell.
-/

namespace Jyd
namespace Hdl

variable {Addr Index Tag Cell V : Type}

/-- How a cache and the memory behind it split the addresses of a region. -/
structure Geometry (Addr Index Tag Cell : Type) where
  index : Addr → Index
  tag : Addr → Tag
  cell : Addr → Cell
  region : Addr → Prop
  same_cell : ∀ {a b}, region a → region b → index a = index b → tag a = tag b → cell a = cell b
  same_index : ∀ {a b}, region a → region b → cell a = cell b → index a = index b

structure CacheLine (Tag V : Type) where
  valid : Bool
  tag : Tag
  data : V

namespace Geometry

variable (g : Geometry Addr Index Tag Cell)

/-- Whatever hits in the cache is the word in memory. -/
def Coherent (lines : Index → CacheLine Tag V) (mem : Cell → V) : Prop :=
  ∀ a, g.region a → (lines (g.index a)).valid = true → (lines (g.index a)).tag = g.tag a →
    (lines (g.index a)).data = mem (g.cell a)

variable {g} {lines : Index → CacheLine Tag V} {mem mem' : Cell → V} {a : Addr}

theorem coherent_of_invalid (h : ∀ k, (lines k).valid = false) : g.Coherent lines mem := by
  intro a _ hv
  rw [h] at hv
  exact absurd hv (by decide)

variable [DecidableEq Index]

/-- One line and the cell behind it change together. -/
theorem Coherent.update (h : g.Coherent lines mem) (ha : g.region a)
    (hmem : ∀ x, x ≠ g.cell a → mem' x = mem x) (l : CacheLine Tag V)
    (hl : l.valid = true → l.tag = g.tag a ∧ l.data = mem' (g.cell a)) :
    g.Coherent (Function.update lines (g.index a) l) mem' := by
  intro b hb hv ht
  by_cases hk : g.index b = g.index a
  · rw [hk, Function.update_self] at hv ht ⊢
    rcases hl hv with ⟨htag, hdata⟩
    have hcell : g.cell b = g.cell a := g.same_cell hb ha hk (ht.symm.trans htag)
    rw [hcell]
    exact hdata
  · rw [Function.update_of_ne hk] at hv ht ⊢
    have hcell : g.cell b ≠ g.cell a := fun heq => hk (g.same_index hb ha heq)
    rw [hmem _ hcell]
    exact h b hb hv ht

/-- A refill brings the word that memory holds. -/
theorem Coherent.refill (h : g.Coherent lines mem) (ha : g.region a) {data : V}
    (hdata : data = mem (g.cell a)) :
    g.Coherent (Function.update lines (g.index a) ⟨true, g.tag a, data⟩) mem :=
  h.update ha (fun _ _ => rfl) _ (fun _ => ⟨rfl, hdata⟩)

end Geometry

end Hdl
end Jyd
