import Mathlib.Data.List.Basic

/-!
# Stages — validations that collect messages

A validation is a list of stages.  A stage adds messages or raises an exception, and an exception
ends the validation.  Nothing is reported exactly when no stage reports anything, and the first
stage that raises decides what is raised.
-/

namespace Jyd
namespace Report

variable {ε : Type}

abbrev Stage (ε : Type) := Except ε (List String)

/-- A stage and what follows it. -/
def andThen : Stage ε → Stage ε → Stage ε
  | .error e, _ => .error e
  | .ok _, .error e => .error e
  | .ok messages, .ok more => .ok (messages ++ more)

/-- All messages, in the order of the stages. -/
def run : List (Stage ε) → Stage ε
  | [] => .ok []
  | stage :: stages => andThen stage (run stages)

/-- A message unless the condition holds. -/
def require (condition : Bool) (message : String) : List String :=
  if condition then [] else [message]

@[simp] theorem require_eq_nil_iff {condition : Bool} {message : String} :
    require condition message = [] ↔ condition = true := by
  cases condition <;> simp [require]

theorem andThen_eq_ok_nil_iff {first second : Stage ε} :
    andThen first second = .ok [] ↔ first = .ok [] ∧ second = .ok [] := by
  cases first <;> cases second <;> simp [andThen]

theorem run_cons_eq_ok_nil_iff {stage : Stage ε} {stages : List (Stage ε)} :
    run (stage :: stages) = .ok [] ↔ stage = .ok [] ∧ run stages = .ok [] :=
  andThen_eq_ok_nil_iff

/-- Nothing is reported exactly when no stage reports anything. -/
theorem run_eq_ok_nil_iff {stages : List (Stage ε)} :
    run stages = .ok [] ↔ ∀ stage ∈ stages, stage = .ok [] := by
  induction stages with
  | nil => simp [run]
  | cons stage stages ih => rw [run_cons_eq_ok_nil_iff, ih, List.forall_mem_cons]

/-! ## Exceptions -/

/-- The stage ends without an exception. -/
def Completes (stage : Stage ε) : Prop := ∃ messages, stage = .ok messages

/-- The stage raises an exception of a kind. -/
def Raises (kind : ε → Prop) (stage : Stage ε) : Prop := ∃ e, stage = .error e ∧ kind e

variable {kind : ε → Prop}

@[simp] theorem completes_ok (messages : List String) : Completes (.ok messages : Stage ε) :=
  ⟨messages, rfl⟩

@[simp] theorem not_completes_error (e : ε) : ¬ Completes (.error e : Stage ε) := by
  rintro ⟨messages, h⟩
  cases h

@[simp] theorem not_raises_ok (messages : List String) : ¬ Raises kind (.ok messages) := by
  rintro ⟨e, h, -⟩
  cases h

@[simp] theorem raises_error_iff {e : ε} : Raises kind (.error e) ↔ kind e := by
  constructor
  · rintro ⟨e', h, hkind⟩
    cases h
    exact hkind
  · exact fun hkind => ⟨e, rfl, hkind⟩

theorem Completes.not_raises {stage : Stage ε} (h : Completes stage) : ¬ Raises kind stage := by
  obtain ⟨messages, rfl⟩ := h
  exact not_raises_ok messages

theorem raises_andThen_iff {first second : Stage ε} :
    Raises kind (andThen first second) ↔
      Raises kind first ∨ (Completes first ∧ Raises kind second) := by
  cases first <;> cases second <;> simp [andThen]

theorem raises_run_cons {stage : Stage ε} {stages : List (Stage ε)} :
    Raises kind (run (stage :: stages)) ↔
      Raises kind stage ∨ (Completes stage ∧ Raises kind (run stages)) :=
  raises_andThen_iff

/-- The stages behind a group are reached when the whole group completes. -/
theorem raises_run_append {before after : List (Stage ε)} :
    Raises kind (run (before ++ after)) ↔
      Raises kind (run before) ∨
        ((∀ stage ∈ before, Completes stage) ∧ Raises kind (run after)) := by
  induction before with
  | nil => simp [run]
  | cons stage before ih =>
    rw [List.cons_append, raises_run_cons, raises_run_cons, ih, List.forall_mem_cons]
    tauto

/-- A group of stages none of which raises the kind. -/
theorem not_raises_run {stages : List (Stage ε)} (h : ∀ stage ∈ stages, ¬ Raises kind stage) :
    ¬ Raises kind (run stages) := by
  induction stages with
  | nil => simp [run]
  | cons stage stages ih =>
    rw [List.forall_mem_cons] at h
    rw [raises_run_cons]
    rintro (hstage | ⟨-, hrest⟩)
    · exact h.1 hstage
    · exact ih h.2 hrest

/-- Where nothing but the kind is raised, one stage that raises it is enough. -/
theorem raises_run_iff_exists {stages : List (Stage ε)}
    (h : ∀ stage ∈ stages, Completes stage ∨ Raises kind stage) :
    Raises kind (run stages) ↔ ∃ stage ∈ stages, Raises kind stage := by
  induction stages with
  | nil => simp [run]
  | cons stage stages ih =>
    rw [List.forall_mem_cons] at h
    rw [raises_run_cons, ih h.2, List.exists_mem_cons_iff]
    constructor
    · rintro (hstage | ⟨-, hrest⟩)
      · exact Or.inl hstage
      · exact Or.inr hrest
    · rintro (hstage | hrest)
      · exact Or.inl hstage
      · exact h.1.symm.imp_right fun hcompletes => ⟨hcompletes, hrest⟩

end Report
end Jyd
