import Mathlib.Data.List.Basic
import Mathlib.Logic.Function.Basic

/-!
# Tally — tables whose entries are updated one at a time

Every event goes to one entry of a table.  What an entry holds in the end depends on the events
that went to it only, so a table that has an entry for every kind of event counts each kind
exactly.
-/

namespace Jyd
namespace Hdl

variable {ε ι β : Type} [DecidableEq ι]

/-- The table after one event. -/
def tallyStep (slot : ε → ι) (upd : β → ε → β) (t : ι → β) (e : ε) : ι → β :=
  Function.update t (slot e) (upd (t (slot e)) e)

def tally (slot : ε → ι) (upd : β → ε → β) (t : ι → β) (es : List ε) : ι → β :=
  es.foldl (tallyStep slot upd) t

variable {slot : ε → ι} {upd : β → ε → β}

theorem tally_apply (t : ι → β) (es : List ε) (i : ι) :
    tally slot upd t es i = (es.filter fun e => slot e = i).foldl upd (t i) := by
  rw [tally]
  induction es generalizing t with
  | nil => rfl
  | cons e es ih =>
    rw [List.foldl_cons, ih]
    by_cases h : slot e = i
    · rw [List.filter_cons_of_pos (by simpa using h), List.foldl_cons, tallyStep, ← h,
        Function.update_self]
    · rw [List.filter_cons_of_neg (by simpa using h), tallyStep,
        Function.update_of_ne (Ne.symm h)]

end Hdl
end Jyd
