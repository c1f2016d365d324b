import Mathlib.Data.List.Basic

/-!
# CacheHistory — hits of a direct-mapped cache from the history of its accesses

The last access that selected a line decides what the line holds.  Histories list the
newest access first.
-/

namespace Jyd
namespace Hdl

variable {Access Index Tag : Type*} [DecidableEq Index] [DecidableEq Tag]

/-- The last access that selected a line. -/
def lastAccess (index : Access → Index) (h : List Access) (k : Index) : Option Access :=
  h.find? fun x => decide (index x = k)

/-- The last access of a line left it valid with this tag. -/
def holdsTag (index : Access → Index) (tag : Access → Tag) (allocates : Access → Bool)
    (h : List Access) (k : Index) (t : Tag) : Bool :=
  (lastAccess index h k).any fun x => allocates x && decide (tag x = t)

section History

variable {index : Access → Index} {tag : Access → Tag} {allocates : Access → Bool}
  {h : List Access} {a : Access} {k : Index} {t : Tag}

theorem lastAccess_cons_of_eq (hk : index a = k) : lastAccess index (a :: h) k = some a := by
  simp [lastAccess, hk]

theorem lastAccess_cons_of_ne (hk : index a ≠ k) :
    lastAccess index (a :: h) k = lastAccess index h k := by
  simp [lastAccess, hk]

theorem holdsTag_cons_self :
    holdsTag index tag allocates (a :: h) (index a) t = (allocates a && decide (tag a = t)) := by
  rw [holdsTag, lastAccess_cons_of_eq rfl, Option.any_some]

theorem holdsTag_cons_of_ne (hk : index a ≠ k) :
    holdsTag index tag allocates (a :: h) k t = holdsTag index tag allocates h k t := by
  rw [holdsTag, lastAccess_cons_of_ne hk, ← holdsTag]

/-- A line holds one tag. -/
theorem tag_unique {t' : Tag} (ht : holdsTag index tag allocates h k t = true)
    (ht' : holdsTag index tag allocates h k t' = true) : t = t' := by
  rw [holdsTag] at ht ht'
  cases hlast : lastAccess index h k with
  | none =>
    rw [hlast] at ht
    exact absurd ht Bool.false_ne_true
  | some x =>
    rw [hlast, Option.any_some, Bool.and_eq_true, decide_eq_true_eq] at ht ht'
    exact ht.2.symm.trans ht'.2

/-- An access that finds its tag and allocates changes nothing. -/
theorem holdsTag_cons_of_hit (ha : allocates a = true)
    (hhit : holdsTag index tag allocates h (index a) (tag a) = true) :
    holdsTag index tag allocates (a :: h) k t = holdsTag index tag allocates h k t := by
  by_cases hk : index a = k
  · subst hk
    rw [holdsTag_cons_self, ha, Bool.true_and]
    by_cases ht : tag a = t
    · rw [decide_eq_true ht, ← ht, hhit]
    · rw [decide_eq_false ht, eq_comm, Bool.eq_false_iff]
      exact fun hother => ht (tag_unique hhit hother)
  · exact holdsTag_cons_of_ne hk

end History

/-! ## Fewer lines -/

section Coarse

variable {Coarse : Type*} [DecidableEq Coarse] {index : Access → Index} {coarse : Access → Coarse}
  {tag : Access → Tag} {allocates : Access → Bool} {a : Access}

/-- With fewer lines, and tags that still tell the lines apart, a hit needs that no other line
has been selected in between. -/
theorem holdsTag_coarse_iff (hcoarse : ∀ x y, index x = index y → coarse x = coarse y)
    (hapart : ∀ x y, coarse x = coarse y → tag x = tag y → index x = index y) (h : List Access) :
    holdsTag coarse tag allocates h (coarse a) (tag a) = true ↔
      holdsTag index tag allocates h (index a) (tag a) = true ∧
        ∀ x ∈ lastAccess coarse h (coarse a), index x = index a := by
  induction h with
  | nil =>
    exact ⟨fun hfalse => absurd hfalse Bool.false_ne_true,
      fun hfalse => absurd hfalse.1 Bool.false_ne_true⟩
  | cons x h ih =>
    by_cases hc : coarse x = coarse a
    · rw [lastAccess_cons_of_eq hc]
      by_cases hi : index x = index a
      · rw [← hc, ← hi, holdsTag_cons_self, holdsTag_cons_self]
        exact ⟨fun hhit => ⟨hhit, fun y hy => Option.some.inj hy ▸ rfl⟩, And.left⟩
      · -- the other line has taken the place
        rw [← hc, holdsTag_cons_self]
        constructor
        · intro hhit
          rw [Bool.and_eq_true, decide_eq_true_eq] at hhit
          exact absurd (hapart x a hc hhit.2) hi
        · exact fun hhit => absurd (hhit.2 x rfl) hi
    · have hi : index x ≠ index a := fun hi => hc (hcoarse x a hi)
      rw [holdsTag_cons_of_ne hc, holdsTag_cons_of_ne hi, lastAccess_cons_of_ne hc]
      exact ih

end Coarse

end Hdl
end Jyd
