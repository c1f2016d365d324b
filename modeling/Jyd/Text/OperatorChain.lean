import Mathlib.Data.List.Basic
import Mathlib.Data.List.Induction
import Mathlib.Order.Basic

/-!
# OperatorChain — operands joined by left-associative operators

Between parentheses an infix expression is a chain: an operand, and then operators with an
operand each.  Priorities make a tree of it.  A canonical tree has at every node the
rightmost of the operators of lowest priority, so a chain has at most one canonical tree,
whatever procedure built it.  Evaluated from the left, such a tree stops at the first fault
of the chain: no operator of lower priority is applied before a later operand is looked at.
-/

namespace Jyd
namespace Text

universe u v w

/-! ## Chains -/

@[ext]
structure Chain (Op : Type u) (α : Type v) where
  head : α
  tail : List (Op × α)
  deriving DecidableEq, Repr

namespace Chain

variable {Op : Type u} {α : Type v}

def ops (c : Chain Op α) : List Op := c.tail.map Prod.fst

def operands (c : Chain Op α) : List α := c.head :: c.tail.map Prod.snd

/-- One chain, an operator, another chain. -/
def join (c : Chain Op α) (o : Op) (d : Chain Op α) : Chain Op α :=
  ⟨c.head, c.tail ++ (o, d.head) :: d.tail⟩

variable (c d : Chain Op α) (o : Op)

@[simp] theorem ops_join : (c.join o d).ops = c.ops ++ o :: d.ops := by
  simp [ops, join]

@[simp] theorem operands_join : (c.join o d).operands = c.operands ++ d.operands := by
  simp [operands, join]

theorem join_assoc (e : Chain Op α) (o' : Op) :
    (c.join o d).join o' e = c.join o (d.join o' e) := by
  simp [join]

variable {c d o}

/-- A chain cut at two places, the second not in front of the first. -/
theorem cut_behind {c' d' : Chain Op α} {o' : Op} {mid : List (Op × α)} (hhead : c.head = c'.head)
    (hc : c'.tail = c.tail ++ mid) (hd : (o, d.head) :: d.tail = mid ++ (o', d'.head) :: d'.tail) :
    (c = c' ∧ o = o' ∧ d = d') ∨ (o ∈ c'.ops ∧ o' ∈ d.ops) := by
  cases mid with
  | nil =>
    obtain ⟨hpair, htail⟩ := List.cons.inj hd
    obtain ⟨ho, hdhead⟩ := Prod.mk.inj hpair
    exact .inl ⟨Chain.ext hhead (by rw [hc, List.append_nil]), ho, Chain.ext hdhead htail⟩
  | cons p mid =>
    obtain ⟨rfl, htail⟩ := List.cons.inj hd
    exact .inr ⟨by simp [ops, hc], by simp [ops, htail]⟩

/-- Two ways to cut one chain in two: at the same place, or one behind the other. -/
theorem join_eq_join {c' d' : Chain Op α} {o' : Op} (h : c.join o d = c'.join o' d') :
    (c = c' ∧ o = o' ∧ d = d') ∨ (o ∈ c'.ops ∧ o' ∈ d.ops) ∨ (o' ∈ c.ops ∧ o ∈ d'.ops) := by
  obtain ⟨hhead, htail⟩ := mk.inj h
  rcases List.append_eq_append_iff.mp htail with ⟨mid, hc, hd⟩ | ⟨mid, hc, hd⟩
  · rcases cut_behind hhead hc hd with heq | hbehind
    · exact .inl heq
    · exact .inr (.inl hbehind)
  · rcases cut_behind hhead.symm hc hd with ⟨hcc, hoo, hdd⟩ | hbehind
    · exact .inl ⟨hcc.symm, hoo.symm, hdd.symm⟩
    · exact .inr (.inr hbehind)

end Chain

/-! ## Trees -/

inductive OpTree (Op : Type u) (α : Type v)
  | leaf (a : α)
  | node (l : OpTree Op α) (o : Op) (r : OpTree Op α)
  deriving DecidableEq, Repr

namespace OpTree

variable {Op : Type u} {α : Type v} {β : Type w}

def flatten : OpTree Op α → Chain Op α
  | leaf a => ⟨a, []⟩
  | node l o r => l.flatten.join o r.flatten

def fold (leaf : α → β) (node : Op → β → β → β) : OpTree Op α → β
  | .leaf a => leaf a
  | .node l o r => node o (l.fold leaf node) (r.fold leaf node)

/-- Every node holds the rightmost of the operators of lowest priority below it. -/
def Canonical (prio : Op → ℕ) : OpTree Op α → Prop
  | leaf _ => True
  | node l o r =>
    l.Canonical prio ∧ r.Canonical prio ∧ (∀ o' ∈ l.flatten.ops, prio o ≤ prio o') ∧
      ∀ o' ∈ r.flatten.ops, prio o < prio o'

theorem Canonical.unique {prio : Op → ℕ} {t u : OpTree Op α} (ht : t.Canonical prio)
    (hu : u.Canonical prio) (h : t.flatten = u.flatten) : t = u := by
  induction t generalizing u with
  | leaf a =>
    cases u with
    | leaf b => rw [(Chain.mk.inj h).1]
    | node l o r => exact absurd (congrArg Chain.tail h) (by simp [flatten, Chain.join])
  | node l o r ihl ihr =>
    cases u with
    | leaf b => exact absurd (congrArg Chain.tail h) (by simp [flatten, Chain.join])
    | node l' o' r' =>
      obtain ⟨hl, hr, hle, hlt⟩ := ht
      obtain ⟨hl', hr', hle', hlt'⟩ := hu
      -- a root further to the left has another root of no higher priority on its right
      rcases Chain.join_eq_join h with ⟨hcl, rfl, hcr⟩ | ⟨ho, ho'⟩ | ⟨ho', ho⟩
      · rw [ihl hl hl' hcl, ihr hr hr' hcr]
      · exact absurd (hle' o ho) (Nat.not_le.mpr (hlt o' ho'))
      · exact absurd (hle o' ho') (Nat.not_le.mpr (hlt' o ho))

end OpTree

/-! ## Evaluation from the left -/

section Faults

variable {Op : Type u} {α : Type v} {β γ ε : Type w}

theorem bind_eq_ok_iff {x : Except ε β} {f : β → Except ε γ} {c : γ} :
    x.bind f = .ok c ↔ ∃ b, x = .ok b ∧ f b = .ok c := by
  cases x <;> simp [Except.bind]

theorem bind_eq_error_iff {x : Except ε β} {f : β → Except ε γ} {e : ε} :
    x.bind f = .error e ↔ x = .error e ∨ ∃ b, x = .ok b ∧ f b = .error e := by
  cases x <;> simp [Except.bind]

variable (leaf : α → Except ε β) (guard : Op → β → Except ε PUnit) (apply : Op → β → β → β)

/-- Evaluate both sides, the left one first; an operator may refuse its right operand. -/
def strictNode (o : Op) (l r : Except ε β) : Except ε β := do
  let a ← l
  let b ← r
  guard o b
  return apply o a b

def checkTail : List (Op × α) → Except ε PUnit
  | [] => return ⟨⟩
  | (o, a) :: rest => do
      guard o (← leaf a)
      checkTail rest

/-- Look at the operands one after the other. -/
def Chain.check (c : Chain Op α) : Except ε PUnit := do
  let _ ← leaf c.head
  checkTail leaf guard c.tail

variable {leaf guard apply}

theorem checkTail_append (a b : List (Op × α)) :
    checkTail leaf guard (a ++ b) =
      (checkTail leaf guard a).bind fun _ => checkTail leaf guard b := by
  induction a with
  | nil => rfl
  | cons p a ih =>
    obtain ⟨o, x⟩ := p
    simp only [List.cons_append, checkTail, ih]
    cases leaf x with
    | error f => rfl
    | ok v =>
      change (guard o v).bind _ = ((guard o v).bind _).bind _
      cases guard o v <;> rfl

theorem Chain.check_join (c d : Chain Op α) (o : Op) :
    (c.join o d).check leaf guard =
      (c.check leaf guard).bind fun _ => checkTail leaf guard ((o, d.head) :: d.tail) := by
  simp only [Chain.check, Chain.join]
  cases leaf c.head with
  | error f => rfl
  | ok v => exact checkTail_append _ _

theorem checkTail_cons (o : Op) (a : α) (rest : List (Op × α)) :
    checkTail leaf guard ((o, a) :: rest) =
      (leaf a).bind fun b => (guard o b).bind fun _ => checkTail leaf guard rest := rfl

theorem ok_of_checkTail {ps : List (Op × α)} {p : Op × α}
    (h : checkTail leaf guard ps = .ok ⟨⟩) (hp : p ∈ ps) : ∃ b, leaf p.2 = .ok b := by
  obtain ⟨a, rest, rfl⟩ := List.append_of_mem hp
  rw [checkTail_append] at h
  obtain ⟨-, -, h⟩ := bind_eq_ok_iff.mp h
  rw [checkTail_cons] at h
  obtain ⟨b, hb, -⟩ := bind_eq_ok_iff.mp h
  exact ⟨b, hb⟩

/-- A chain without a fault has a value for each of its operands. -/
theorem Chain.ok_of_check {c : Chain Op α} {a : α} (h : c.check leaf guard = .ok ⟨⟩)
    (ha : a ∈ c.operands) : ∃ b, leaf a = .ok b := by
  obtain ⟨b, hb, htail⟩ := bind_eq_ok_iff.mp h
  rcases List.mem_cons.mp ha with rfl | ha
  · exact ⟨b, hb⟩
  · obtain ⟨p, hp, rfl⟩ := List.mem_map.mp ha
    exact ok_of_checkTail htail hp

/-- The fault of a chain is that of an operand, or of the operator in front of it, and there is
none before it. -/
theorem Chain.check_error {c : Chain Op α} {f : ε} (h : c.check leaf guard = .error f) :
    leaf c.head = .error f ∨
      ∃ d o e, c = Chain.join d o e ∧ d.check leaf guard = .ok ⟨⟩ ∧
        (leaf e.head = .error f ∨ ∃ b, guard o b = .error f) := by
  -- from the end: the last operand is looked at only behind a chain without a fault
  obtain ⟨x, ps⟩ := c
  induction ps using List.reverseRecOn with
  | nil =>
    rcases bind_eq_error_iff.mp h with hx | ⟨_, -, hnone⟩
    · exact .inl hx
    · cases hnone
  | append_singleton ps p ih =>
    have hjoin : (⟨x, ps ++ [p]⟩ : Chain Op α) = Chain.join ⟨x, ps⟩ p.1 ⟨p.2, []⟩ := rfl
    rw [hjoin, Chain.check_join] at h
    rcases bind_eq_error_iff.mp h with hps | ⟨_, hps, hlast⟩
    · rcases ih hps with hx | ⟨d, o, e, hde, hd, he⟩
      · exact .inl hx
      · exact .inr ⟨d, o, e.join p.1 ⟨p.2, []⟩, by rw [hjoin, hde, Chain.join_assoc], hd, he⟩
    · refine .inr ⟨⟨x, ps⟩, p.1, ⟨p.2, []⟩, hjoin, hps, ?_⟩
      rw [checkTail_cons] at hlast
      rcases bind_eq_error_iff.mp hlast with hleaf | ⟨b, -, hrest⟩
      · exact .inl hleaf
      · rcases bind_eq_error_iff.mp hrest with hguard | ⟨_, -, hnone⟩
        · exact .inr ⟨b, hguard⟩
        · cases hnone

/-- A fault behind an operator, which may have another one of its kind. -/
theorem Chain.checkTail_error {d : Chain Op α} {o : Op} {K : ε → Prop} {f : ε} (hf : K f)
    (h : d.check leaf guard = .error f)
    (hguard : ∀ b, guard o b = .ok ⟨⟩ ∨ ∃ g, K g ∧ guard o b = .error g) :
    ∃ g, K g ∧ checkTail leaf guard ((o, d.head) :: d.tail) = .error g := by
  rw [checkTail_cons]
  rcases bind_eq_error_iff.mp h with hhead | ⟨b, hb, htail⟩
  · exact ⟨f, hf, bind_eq_error_iff.mpr (.inl hhead)⟩
  · have hrest : ∀ g, (guard o b).bind (fun _ => checkTail leaf guard d.tail) = .error g →
        (leaf d.head).bind (fun b => (guard o b).bind fun _ => checkTail leaf guard d.tail) =
          .error g := fun g hg => bind_eq_error_iff.mpr (.inr ⟨b, hb, hg⟩)
    rcases hguard b with hok | ⟨g, hg, hno⟩
    · exact ⟨f, hf, hrest f (bind_eq_error_iff.mpr (.inr ⟨⟨⟩, hok, htail⟩))⟩
    · exact ⟨g, hg, hrest g (bind_eq_error_iff.mpr (.inl hno))⟩

/-- Operators that may refuse an operand have the highest priority of all. -/
def GuardsBindTightest (prio : Op → ℕ) (guard : Op → β → Except ε PUnit) : Prop :=
  ∀ o b, guard o b ≠ .ok ⟨⟩ → ∀ o', prio o' ≤ prio o

theorem OpTree.fold_check {prio : Op → ℕ} (hguard : GuardsBindTightest prio guard)
    {t : OpTree Op α} (ht : t.Canonical prio) :
    (t.fold leaf (strictNode guard apply)).map (fun _ => PUnit.unit) =
      t.flatten.check leaf guard := by
  induction t with
  | leaf a =>
    simp only [OpTree.fold, OpTree.flatten, Chain.check, checkTail]
    cases leaf a <;> rfl
  | node l o r ihl ihr =>
    obtain ⟨hl, hr, -, hlt⟩ := ht
    specialize ihl hl
    specialize ihr hr
    rw [OpTree.flatten, Chain.check_join, ← ihl]
    simp only [OpTree.fold, strictNode]
    cases l.fold leaf (strictNode guard apply) with
    | error f => rfl
    | ok a =>
      change (Except.bind _ _).map _ = checkTail _ _ _
      cases r with
      | leaf x =>
        simp only [OpTree.fold, OpTree.flatten, checkTail]
        cases leaf x with
        | error f => rfl
        | ok v =>
          change ((guard o v).bind _).map _ = (guard o v).bind _
          cases guard o v <;> rfl
      | node rl o' rr =>
        -- a tighter operator on the right, so this one accepts whatever comes out of it
        have hfree : ∀ v, guard o v = .ok ⟨⟩ := fun v => by
          by_contra h
          exact absurd (hlt o' (by simp [OpTree.flatten])) (Nat.not_lt.mpr (hguard o v h o'))
        have hsame : checkTail leaf guard
            ((o, ((rl.node o' rr).flatten).head) :: ((rl.node o' rr).flatten).tail) =
              ((rl.node o' rr).flatten).check leaf guard := by
          simp only [checkTail, Chain.check, hfree]
          rfl
        rw [hsame, ← ihr]
        cases (rl.node o' rr).fold leaf (strictNode guard apply) with
        | error f => rfl
        | ok v =>
          change ((guard o v).bind _).map _ = _
          rw [hfree]
          rfl

end Faults

end Text
end Jyd
