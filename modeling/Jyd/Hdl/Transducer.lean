import Mathlib.Data.List.Basic

/-!
# Transducer — programs that answer a trace record by record

A transducer reads one record at a time, answers it and moves to its next state, or
fails.  Two transducers with related initial states, whose steps answer alike and keep
the relation, give the same answers on every trace.
-/

namespace Jyd
namespace Hdl

structure Transducer (In Out State : Type) where
  init : State
  step : State → In → Option (Out × State)

namespace Transducer

variable {In Out S T : Type}

def runFrom (m : Transducer In Out S) : S → List In → Option (List Out)
  | _, [] => some []
  | s, i :: rest => do
      let (out, s') ← m.step s i
      let outs ← m.runFrom s' rest
      some (out :: outs)

def run (m : Transducer In Out S) (trace : List In) : Option (List Out) := m.runFrom m.init trace

/-- A relation between the states of two transducers that their steps keep, on records that
satisfy `P`. -/
structure Simulation (m : Transducer In Out S) (n : Transducer In Out T) (P : In → Prop)
    (rel : S → T → Prop) : Prop where
  init : rel m.init n.init
  step : ∀ s t i, P i → rel s t →
    ∃ out s' t', m.step s i = some (out, s') ∧ n.step t i = some (out, t') ∧ rel s' t'

namespace Simulation

variable {m : Transducer In Out S} {n : Transducer In Out T} {P : In → Prop} {rel : S → T → Prop}

theorem runFrom (h : Simulation m n P rel) {trace : List In} (hP : ∀ i ∈ trace, P i) {s : S} {t : T}
    (hrel : rel s t) :
    ∃ outs, m.runFrom s trace = some outs ∧ n.runFrom t trace = some outs ∧
      outs.length = trace.length := by
  induction trace generalizing s t with
  | nil => exact ⟨[], rfl, rfl, rfl⟩
  | cons i rest ih =>
    obtain ⟨out, s', t', hm, hn, hrel'⟩ := h.step s t i (hP i List.mem_cons_self) hrel
    obtain ⟨outs, hms, hns, hlen⟩ := ih (fun j hj => hP j (List.mem_cons_of_mem _ hj)) hrel'
    refine ⟨out :: outs, ?_, ?_, by rw [List.length_cons, List.length_cons, hlen]⟩
    · simp [Transducer.runFrom, hm, hms]
    · simp [Transducer.runFrom, hn, hns]

theorem run (h : Simulation m n P rel) {trace : List In} (hP : ∀ i ∈ trace, P i) :
    ∃ outs, m.run trace = some outs ∧ n.run trace = some outs ∧ outs.length = trace.length :=
  h.runFrom hP h.init

end Simulation

end Transducer
end Hdl
end Jyd
