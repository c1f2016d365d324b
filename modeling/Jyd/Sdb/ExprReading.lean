import Jyd.Sdb.ExprPieces
import Jyd.Sdb.ExprTokens

/-!
# ExprReading — the readings of a range of tokens

A reading is a syntax tree over the tokens of a range, with the usual precedence and left
association.  It also says what the evaluator ignores: the text between an operator and the
last dereference behind it.  A range has a value exactly if it has a reading with that
value, and it has at most one reading.
-/

namespace Jyd
namespace Sdb

open Hdl Text

inductive Reading
  | token (t : Token)
  | parens (e : Reading)
  | deref (ignored : List Token) (e : Reading)
  | binary (l : Reading) (o : BinOp) (r : Reading)
  deriving DecidableEq, Repr

namespace Reading

/-! ## Tokens and values -/

def tokens : Reading → List Token
  | token t => [t]
  | parens e => .lparen :: e.tokens ++ [.rparen]
  | deref ignored e => ignored ++ .deref :: e.tokens
  | binary l o r => l.tokens ++ .op o :: r.tokens

def run (env : Env) : Reading → Except Halt Word
  | token t => evalToken env t
  | parens e => e.run env
  | deref _ e => (e.run env).bind env.deref
  | binary l o r => strictNode BinOp.guard BinOp.apply o (l.run env) (r.run env)

/-- The operators outside parentheses. -/
def ops : Reading → List BinOp
  | binary l o r => l.ops ++ o :: r.ops
  | _ => []

def isOperand : Reading → Bool
  | token _ | parens _ => true
  | _ => false

/-- Operands are operands, parentheses match, and the operators are where their priorities
put them. -/
def Valid : Reading → Prop
  | token t => t.isOperand = true
  | parens e => e.Valid ∧ parenthesesMatch 0 e.tokens = true
  | deref ignored e => e.Valid ∧ e.isOperand = true ∧ depth ignored = 0 ∧ Piece ignored
  | binary l o r =>
    l.Valid ∧ r.Valid ∧ (∀ o' ∈ l.ops, o.priority ≤ o'.priority) ∧
      ∀ o' ∈ r.ops, o.priority < o'.priority

/-- Nothing is ignored. -/
def Whole : Reading → Prop
  | token _ => True
  | parens e => e.Whole
  | deref ignored e => ignored = [] ∧ e.Whole
  | binary l _ r => l.Whole ∧ r.Whole

/-! ## The chain of a reading -/

def tree : Reading → OpTree BinOp (List Token)
  | binary l o r => .node l.tree o r.tree
  | e => .leaf e.tokens

variable {e : Reading}

theorem tree_ops (e : Reading) : e.tree.flatten.ops = e.ops := by
  induction e with
  | binary l o r ihl ihr => rw [tree, OpTree.flatten, Chain.ops_join, ihl, ihr, ops]
  | _ => rfl

theorem rangeOf_tree (e : Reading) : rangeOf e.tree.flatten = e.tokens := by
  induction e with
  | binary l o r ihl ihr => rw [tree, OpTree.flatten, rangeOf_join, ihl, ihr, tokens]
  | _ => simp [tree, OpTree.flatten, rangeOf]

theorem Valid.canonical (h : e.Valid) : e.tree.Canonical BinOp.priority := by
  induction e with
  | binary l o r ihl ihr =>
    obtain ⟨hl, hr, hle, hlt⟩ := h
    refine ⟨ihl hl, ihr hr, ?_, ?_⟩
    · rwa [tree_ops]
    · rwa [tree_ops]
  | _ => trivial

theorem Valid.topOps_operand (h : e.Valid) (hop : e.isOperand = true) : topOps 0 e.tokens = [] := by
  cases e with
  | token t => cases t <;> first | rfl | cases h
  | parens e =>
    refine (topOps_of_checkParentheses (by simp [tokens]) ?_).1
    exact checkParentheses_wrap.trans h.2
  | _ => cases hop

theorem Valid.piece_deref {ignored : List Token} (h : (deref ignored e).Valid) :
    Piece (ignored ++ .deref :: e.tokens) :=
  Sdb.piece_deref h.2.2.2 h.2.2.1 (h.1.topOps_operand h.2.1)

theorem Valid.depth_eq (h : e.Valid) : depth e.tokens = 0 := by
  induction e with
  | token t => cases t <;> first | rfl | cases h
  | parens e ih => simp [tokens, ih h.1, Token.turn]
  | deref ignored e ih => simp [tokens, ih h.1, h.2.2.1, Token.turn]
  | binary l o r ihl ihr => simp [tokens, ihl h.1, ihr h.2.1, Token.turn]

theorem Valid.pieces_eq (h : e.Valid) : pieces 0 e.tokens = e.tree.flatten := by
  induction e with
  | token t => exact (Piece.of_topOps_nil (h.topOps_operand rfl)).pieces_eq
  | parens e _ => exact (Piece.of_topOps_nil (h.topOps_operand rfl)).pieces_eq
  | deref ignored e _ => exact h.piece_deref.pieces_eq
  | binary l o r ihl ihr =>
    rw [tokens, pieces_append_op ((zero_add _).trans h.1.depth_eq), ihl h.1, ihr h.2.1]
    rfl

/-! ## Readings have the value that the evaluator finds -/

variable {env : Env}

theorem Valid.eval_tree_eq (h : e.Valid) : eval env e.tokens = evalTree env e.tree := by
  obtain ⟨t, hcanon, hflat, heval⟩ := eval_tree env e.tokens
  rw [heval, hcanon.unique h.canonical (hflat.trans h.pieces_eq)]

theorem Valid.eval_eq_run (h : e.Valid) : eval env e.tokens = e.run env := by
  induction e with
  | token t => rfl
  | parens e ih => exact (eval_parenthesised h.2).trans (ih h.1)
  | deref ignored e ih =>
    rw [tokens, eval_deref h.2.2.2 h.2.2.1 (h.1.topOps_operand h.2.1), ih h.1]
    rfl
  | binary l o r ihl ihr =>
    have hnode : evalTree env (binary l o r).tree =
        strictNode BinOp.guard BinOp.apply o (evalTree env l.tree) (evalTree env r.tree) := rfl
    rw [h.eval_tree_eq, hnode, ← h.1.eval_tree_eq, ← h.2.1.eval_tree_eq, ihl h.1, ihr h.2.1]
    rfl

/-! ## Every range with a value has a reading -/

/-- Readings for the pieces of a chain make a reading of its canonical tree. -/
theorem exists_of_tree {t : OpTree BinOp (List Token)} (hcanon : t.Canonical BinOp.priority)
    (hleaf : ∀ x ∈ t.flatten.operands, ∃ e : Reading, e.Valid ∧ e.tokens = x ∧ e.tree = .leaf x) :
    ∃ e : Reading, e.Valid ∧ e.tree = t := by
  induction t with
  | leaf x =>
    obtain ⟨e, he, -, htree⟩ := hleaf x (List.mem_singleton.mpr rfl)
    exact ⟨e, he, htree⟩
  | node l o r ihl ihr =>
    obtain ⟨hl, hr, hle, hlt⟩ := hcanon
    rw [OpTree.flatten, Chain.operands_join] at hleaf
    obtain ⟨el, hel, htl⟩ := ihl hl fun x hx => hleaf x (List.mem_append_left _ hx)
    obtain ⟨er, her, htr⟩ := ihr hr fun x hx => hleaf x (List.mem_append_right _ hx)
    refine ⟨binary el o er, ⟨hel, her, ?_, ?_⟩, by rw [tree, htl, htr]⟩
    · rwa [← tree_ops, htl]
    · rwa [← tree_ops, htr]

theorem operand_of_topOps {e : Reading} (h : e.Valid) (hops : topOps 0 e.tokens = []) :
    e.isOperand = true := by
  cases e with
  | token t => rfl
  | parens e => rfl
  | deref ignored e =>
    rw [tokens, topOps_split rfl h.2.2.1] at hops
    exact absurd hops (by simp)
  | binary l o r =>
    rw [tokens, topOps_split rfl h.1.depth_eq] at hops
    exact absurd hops (by simp)

theorem isOperand_of_evalToken {t : Token} {v : Word} (h : evalToken env t = .ok v) :
    t.isOperand = true := by
  cases t <;> first | rfl | cases h

/-- A piece with a value, if shorter ranges with a value have readings. -/
theorem exists_of_piece {x : List Token} {v : Word} (hpiece : Piece x) (hv : eval env x = .ok v)
    (ih : ∀ us : List Token, us.length < x.length → ∀ w, eval env us = .ok w →
      ∃ e : Reading, e.Valid ∧ e.tokens = us) :
    ∃ e : Reading, e.Valid ∧ e.tokens = x ∧ e.tree = .leaf x := by
  cases hpiece.form with
  | nil => cases hv
  | single t ht => exact ⟨token t, isOperand_of_evalToken hv, rfl, rfl⟩
  | parens us hmatch =>
    rw [eval_parenthesised hmatch] at hv
    obtain ⟨e, he, rfl⟩ := ih us (length_inner_lt us) v hv
    exact ⟨parens e, ⟨he, hmatch⟩, rfl, rfl⟩
  | crowded _ hlen hops hopen =>
    rw [eval_crowded hlen hops hopen] at hv
    cases hv
  | deref l r hl hdepth hr =>
    rw [eval_deref hl hdepth hr] at hv
    obtain ⟨w, hw, -⟩ := bind_eq_ok_iff.mp hv
    obtain ⟨e, he, rfl⟩ := ih r (length_right_lt l _ r) w hw
    exact ⟨deref l e, ⟨he, operand_of_topOps he hr, hdepth, hl⟩, rfl, rfl⟩

theorem exists_of_ok {ts : List Token} {v : Word} (h : eval env ts = .ok v) :
    ∃ e : Reading, e.Valid ∧ e.tokens = ts := by
  induction hn : ts.length using Nat.strong_induction_on generalizing ts v with
  | _ n ih =>
    subst hn
    -- every piece has a value, so every piece has a reading; the tree puts them together
    obtain ⟨t, hcanon, hflat, -⟩ := eval_tree env ts
    have hcheck := eval_ok_iff_check.mp ⟨v, h⟩
    obtain ⟨e, he, htree⟩ := exists_of_tree hcanon fun x hx => by
      rw [hflat] at hx
      obtain ⟨w, hw⟩ := Chain.ok_of_check hcheck hx
      refine exists_of_piece (mem_operands_piece hx) hw fun us hus w' hw' => ?_
      exact ih us.length (hus.trans_le (length_le_of_mem_operands hx)) hw' rfl
    refine ⟨e, he, ?_⟩
    rw [← rangeOf_tree, htree, hflat, rangeOf_pieces]

theorem eval_ok_iff {ts : List Token} {v : Word} :
    eval env ts = .ok v ↔ ∃ e : Reading, e.Valid ∧ e.tokens = ts ∧ e.run env = .ok v := by
  constructor
  · intro h
    obtain ⟨e, he, rfl⟩ := exists_of_ok h
    exact ⟨e, he, rfl, he.eval_eq_run.symm.trans h⟩
  · rintro ⟨e, he, rfl, hv⟩
    exact he.eval_eq_run.trans hv

/-! ## A range has one reading -/

theorem Valid.tree_eq {e' : Reading} (h : e.Valid) (h' : e'.Valid)
    (heq : e.tokens = e'.tokens) : e.tree = e'.tree :=
  h.canonical.unique h'.canonical (h.pieces_eq.symm.trans ((congrArg _ heq).trans h'.pieces_eq))

/-- An operand has no operator outside parentheses, a dereference is one. -/
theorem operand_ne_deref {e' : Reading} {ignored : List Token} (h : e.Valid)
    (hop : e.isOperand = true) (h' : (deref ignored e').Valid) :
    e.tokens ≠ (deref ignored e').tokens := by
  intro heq
  have hnone := h.topOps_operand hop
  rw [heq, tokens, topOps_split rfl h'.2.2.1] at hnone
  exact absurd hnone (by simp)

theorem Valid.unique {e' : Reading} (h : e.Valid) (h' : e'.Valid) (heq : e.tokens = e'.tokens) :
    e = e' := by
  -- the trees of pieces agree; within a piece the last dereference and the parentheses do
  induction e generalizing e' with
  | token t =>
    cases e' with
    | token t' => exact congrArg token (List.singleton_inj.mp heq)
    | parens e' => exact absurd (congrArg List.length heq) (by simp [tokens])
    | deref ignored e' => exact absurd heq (operand_ne_deref h rfl h')
    | binary l o r => cases h.tree_eq h' heq
  | parens e ih =>
    cases e' with
    | token t => exact absurd (congrArg List.length heq) (by simp [tokens])
    | parens e' =>
      have hinner := List.append_cancel_right (List.cons.inj heq).2
      rw [ih h.1 h'.1 hinner]
    | deref ignored e' => exact absurd heq (operand_ne_deref h rfl h')
    | binary l o r => cases h.tree_eq h' heq
  | deref ignored e ih =>
    cases e' with
    | token t => exact absurd heq.symm (operand_ne_deref h' rfl h)
    | parens e' => exact absurd heq.symm (operand_ne_deref h' rfl h)
    | deref ignored' e' =>
      obtain ⟨rfl, htokens⟩ := deref_cut_unique heq h.2.2.1 h'.2.2.1
        (h.1.topOps_operand h.2.1) (h'.1.topOps_operand h'.2.1)
      rw [ih h.1 h'.1 htokens]
    | binary l o r => cases h.tree_eq h' heq
  | binary l o r ihl ihr =>
    cases e' with
    | binary l' o' r' =>
      obtain ⟨hl, rfl, hr⟩ := OpTree.node.inj (h.tree_eq h' heq)
      rw [ihl h.1 h'.1 (by rw [← rangeOf_tree, hl, rangeOf_tree]),
        ihr h.2.1 h'.2.1 (by rw [← rangeOf_tree, hr, rangeOf_tree])]
    | _ => cases h.tree_eq h' heq

end Reading

end Sdb
end Jyd
