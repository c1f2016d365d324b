import Jyd.Sdb.Expr
import Jyd.Text.OperatorChain
import Mathlib.Algebra.BigOperators.Group.List.Basic
import Mathlib.Tactic.Linarith

/-!
# ExprRanges — what the evaluator makes of a range of tokens

The operators that `find_main_op` sees cut a range into pieces.  The recursion of the
evaluator builds the canonical tree of these pieces: a range with a binary operator is
evaluated piece by piece from the left, and a piece is a dereference, a single token, a
parenthesised range, or the operator search asserts on it.
-/

namespace Jyd
namespace Sdb

open Hdl Text

/-! ## Operators outside parentheses -/

def Token.turn : Token → ℤ
  | .lparen => 1
  | .rparen => -1
  | _ => 0

def Token.isOperator (t : Token) : Bool := (opPriority t).isSome

def Token.priority (t : Token) : ℕ := (opPriority t).getD 0

/-- The change of the parenthesis counter over a range. -/
def depth (ts : List Token) : ℤ := (ts.map Token.turn).sum

/-- The operators that are met while the counter is zero. -/
def topOps : ℤ → List Token → List Token
  | _, [] => []
  | cnt, t :: ts => (if cnt = 0 ∧ t.isOperator then [t] else []) ++ topOps (cnt + t.turn) ts

@[simp] theorem depth_nil : depth [] = 0 := rfl

@[simp] theorem depth_cons (t : Token) (ts : List Token) : depth (t :: ts) = t.turn + depth ts := by
  simp [depth]

@[simp] theorem depth_append (a b : List Token) : depth (a ++ b) = depth a + depth b := by
  simp [depth]

theorem Token.turn_of_isOperator {t : Token} (h : t.isOperator = true) : t.turn = 0 := by
  cases t <;> first | rfl | cases h

theorem topOps_append (cnt : ℤ) (a b : List Token) :
    topOps cnt (a ++ b) = topOps cnt a ++ topOps (cnt + depth a) b := by
  induction a generalizing cnt with
  | nil => simp [topOps]
  | cons t a ih =>
    rw [List.cons_append, topOps, topOps, ih, List.append_assoc, depth_cons, add_assoc]

theorem topOps_split {l r : List Token} {t : Token} (ht : t.isOperator = true) (hl : depth l = 0) :
    topOps 0 (l ++ t :: r) = topOps 0 l ++ t :: topOps 0 r := by
  simp [topOps_append, topOps, hl, ht, Token.turn_of_isOperator ht]

/-! ## `find_main_op` -/

theorem findMainOpLoop_cons (t : Token) (ts : List Token) (i : ℕ) (cnt : ℤ) (min : ℕ)
    (mainOp : Option ℕ) :
    findMainOpLoop (t :: ts) i cnt min mainOp =
      if (cnt = 0 ∧ t.isOperator) ∧ t.priority ≤ min then
        findMainOpLoop ts (i + 1) (cnt + t.turn) t.priority (some i)
      else findMainOpLoop ts (i + 1) (cnt + t.turn) min mainOp := by
  cases t <;> simp [findMainOpLoop, opPriority, Token.isOperator, Token.priority, Token.turn,
    sub_eq_add_neg]

/-- The rightmost of the operators of lowest priority, unless all are above the bound. -/
theorem findMainOpLoop_spec (ts : List Token) (i : ℕ) (cnt : ℤ) (min : ℕ) (mainOp : Option ℕ) :
    (findMainOpLoop ts i cnt min mainOp = mainOp ∧ ∀ u ∈ topOps cnt ts, min < u.priority) ∨
      ∃ l t r, ts = l ++ t :: r ∧ findMainOpLoop ts i cnt min mainOp = some (i + l.length) ∧
        t.isOperator = true ∧ cnt + depth l = 0 ∧ t.priority ≤ min ∧
        (∀ u ∈ topOps cnt l, t.priority ≤ u.priority) ∧
        ∀ u ∈ topOps 0 r, t.priority < u.priority := by
  -- the bound is the priority of the operator selected last, so it only comes down
  induction ts generalizing i cnt min mainOp with
  | nil => exact .inl ⟨rfl, fun u hu => absurd hu List.not_mem_nil⟩
  | cons t ts ih =>
    rw [findMainOpLoop_cons]
    by_cases hsel : (cnt = 0 ∧ t.isOperator = true) ∧ t.priority ≤ min
    · rw [if_pos hsel]
      obtain ⟨⟨rfl, hop⟩, hle⟩ := hsel
      have hturn := Token.turn_of_isOperator hop
      rcases ih (i + 1) (0 + t.turn) t.priority (some i) with
        ⟨hrun, habove⟩ | ⟨l, t', r, rfl, hrun, hop', hdepth, hle', hleft, hright⟩
      · -- nothing behind it is as low: this is the main operator
        rw [hturn, add_zero] at habove
        exact .inr ⟨[], t, ts, rfl, hrun, hop, rfl, hle, fun u hu => absurd hu List.not_mem_nil,
          habove⟩
      · refine .inr ⟨t :: l, t', r, rfl, ?_, hop', ?_, hle'.trans hle, ?_, hright⟩
        · rw [hrun, List.length_cons]
          congr 1
          omega
        · rw [depth_cons]
          omega
        · intro u hu
          rw [topOps, List.mem_append] at hu
          rcases hu with hu | hu
          · rw [if_pos ⟨rfl, hop⟩, List.mem_singleton] at hu
            rw [hu]
            exact hle'
          · exact hleft u hu
    · rw [if_neg hsel]
      -- an operator that is passed over at depth zero is above the bound
      have habove : ∀ u ∈ (if cnt = 0 ∧ t.isOperator = true then [t] else []),
          min < u.priority := by
        intro u hu
        split at hu
        · next hop =>
            rw [List.mem_singleton.mp hu]
            exact Nat.not_le.mp fun hle => hsel ⟨hop, hle⟩
        · cases hu
      rcases ih (i + 1) (cnt + t.turn) min mainOp with
        ⟨hrun, hall⟩ | ⟨l, t', r, rfl, hrun, hop', hdepth, hle', hleft, hright⟩
      · refine .inl ⟨hrun, fun u hu => ?_⟩
        rw [topOps, List.mem_append] at hu
        exact hu.elim (habove u) (hall u)
      · refine .inr ⟨t :: l, t', r, rfl, ?_, hop', ?_, hle', ?_, hright⟩
        · rw [hrun, List.length_cons]
          congr 1
          omega
        · rw [depth_cons]
          omega
        · intro u hu
          rw [topOps, List.mem_append] at hu
          exact hu.elim (fun h => hle'.trans (habove u h).le) (hleft u)

theorem Token.priority_le (t : Token) : t.priority ≤ 15 := by
  cases t with
  | op o => cases o <;> decide
  | _ => simp [Token.priority, opPriority]

/-- The cut that `find_main_op` makes. -/
structure MainOp (ts l : List Token) (t : Token) (r : List Token) : Prop where
  cut : ts = l ++ t :: r
  found : findMainOp ts = some l.length
  isOperator : t.isOperator = true
  depth_left : depth l = 0
  left : ∀ u ∈ topOps 0 l, t.priority ≤ u.priority
  right : ∀ u ∈ topOps 0 r, t.priority < u.priority

theorem findMainOp_spec (ts : List Token) :
    (findMainOp ts = none ∧ topOps 0 ts = []) ∨ ∃ l t r, MainOp ts l t r := by
  rcases findMainOpLoop_spec ts 0 0 0x114514 none with
    ⟨hrun, hall⟩ | ⟨l, t, r, hcut, hrun, hop, hdepth, -, hleft, hright⟩
  · refine .inl ⟨hrun, List.eq_nil_iff_forall_not_mem.mpr fun u hu => ?_⟩
    have hlt := hall u hu
    have hle := u.priority_le
    omega
  · rw [zero_add] at hrun hdepth
    exact .inr ⟨l, t, r, hcut, hrun, hop, hdepth, hleft, hright⟩

theorem findMainOp_none {ts : List Token} (h : topOps 0 ts = []) : findMainOp ts = none := by
  rcases findMainOp_spec ts with ⟨hnone, -⟩ | ⟨l, t, r, hmain⟩
  · exact hnone
  · rw [hmain.cut, topOps_split hmain.isOperator hmain.depth_left] at h
    exact absurd h (by simp)

/-! ## Parentheses -/

/-- Inside a matched pair the counter of the operator search does not come down to zero. -/
theorem parenthesesMatch_spec {cnt : ℕ} {ts : List Token} (h : parenthesesMatch cnt ts = true) :
    topOps (cnt + 1) ts = [] ∧ (cnt : ℤ) + depth ts = 0 := by
  induction ts generalizing cnt with
  | nil =>
    obtain rfl : cnt = 0 := by simpa [parenthesesMatch] using h
    exact ⟨rfl, rfl⟩
  | cons t ts ih =>
    -- the search has counted the enclosing parenthesis too, so it is one ahead
    have hne : ((cnt : ℤ) + 1) ≠ 0 := by omega
    have hpass : ∀ {cnt' : ℕ}, parenthesesMatch cnt' ts = true → (cnt' : ℤ) = cnt + t.turn →
        topOps (cnt + 1) (t :: ts) = [] ∧ (cnt : ℤ) + depth (t :: ts) = 0 := by
      intro cnt' hmatch hcnt
      obtain ⟨hops, hdepth⟩ := ih hmatch
      rw [topOps, if_neg (fun hzero => hne hzero.1), List.nil_append, depth_cons,
        show (cnt : ℤ) + 1 + t.turn = cnt' + 1 by omega]
      exact ⟨hops, by omega⟩
    cases t with
    | lparen => exact hpass h (by simp [Token.turn])
    | rparen =>
      cases cnt with
      | zero => cases h
      | succ cnt => exact hpass h (by simp [Token.turn])
    | _ =>
      have hskip : parenthesesMatch cnt ts = true := by cases cnt <;> exact h
      exact hpass hskip (by simp [Token.turn])

theorem checkParentheses_cut {ts : List Token} (hlen : 2 ≤ ts.length)
    (h : checkParentheses ts = true) :
    ts = .lparen :: inner ts ++ [.rparen] ∧ parenthesesMatch 0 (inner ts) = true := by
  simp only [checkParentheses, Bool.and_eq_true, decide_eq_true_eq] at h
  obtain ⟨⟨hhead, hlast⟩, hmatch⟩ := h
  refine ⟨?_, hmatch⟩
  cases ts with
  | nil => cases hhead
  | cons t ts =>
    obtain rfl := Option.some.inj hhead
    rw [List.getLast?_cons_of_ne_nil (by rintro rfl; simp at hlen)] at hlast
    rw [inner, List.tail_cons, List.cons_append, List.dropLast_append_getLast? _ hlast]

theorem checkParentheses_wrap {ts : List Token} :
    checkParentheses (.lparen :: ts ++ [.rparen]) = parenthesesMatch 0 ts := by
  have hlast : (Token.lparen :: ts ++ [Token.rparen]).getLast? = some .rparen :=
    List.getLast?_concat
  rw [checkParentheses, hlast]
  simp [inner]

theorem topOps_of_checkParentheses {ts : List Token} (hlen : 2 ≤ ts.length)
    (h : checkParentheses ts = true) : topOps 0 ts = [] ∧ depth ts = 0 := by
  obtain ⟨hcut, hmatch⟩ := checkParentheses_cut hlen h
  obtain ⟨hops, hdepth⟩ := parenthesesMatch_spec hmatch
  rw [Nat.cast_zero, zero_add] at hops hdepth
  rw [hcut]
  simp [topOps, topOps_append, Token.isOperator, opPriority, Token.turn, hops, hdepth]

/-! ## The recursion of the evaluator -/

section Eval

variable (env : Env)

theorem evalSub_congr {rec rec' : List Token → Except Halt Word} {ts : List Token}
    (h : ∀ us : List Token, us.length < ts.length → rec us = rec' us) :
    evalSub env rec ts = evalSub env rec' ts := by
  match ts, h with
  | [], _ => rfl
  | [t], _ => rfl
  | t :: t' :: ts, h =>
    have hdrop (op : ℕ) : rec ((t :: t' :: ts).drop (op + 1)) =
        rec' ((t :: t' :: ts).drop (op + 1)) := h _ (by
          simp only [List.length_drop, List.length_cons]
          omega)
    rw [evalSub, evalSub]
    · split
      · exact h _ (by
          simp only [inner, List.length_dropLast, List.length_tail, List.length_cons]
          omega)
      · split
        · rfl
        · split
          · rw [hdrop]
          · next o hget =>
              rw [hdrop, h (List.take _ _) (by
                have := (List.getElem?_eq_some_iff.mp hget).1
                rw [List.length_take]
                omega)]
          · rfl
    all_goals simp

theorem evalLoop_eq {fuel : ℕ} {ts : List Token} (h : ts.length < fuel) :
    evalLoop env fuel ts = eval env ts := by
  -- induction on one bound: the recursive calls are on shorter ranges under both
  have hfuel : ∀ {n m : ℕ} {ts : List Token}, ts.length < n → ts.length < m →
      evalLoop env n ts = evalLoop env m ts := by
    intro n
    induction n with
    | zero => exact fun h => absurd h (Nat.not_lt_zero _)
    | succ n ih =>
      intro m ts hn hm
      obtain ⟨m, rfl⟩ : ∃ k, m = k + 1 := ⟨m - 1, by omega⟩
      exact evalSub_congr env fun us hus => ih (by omega) (by omega)
  exact hfuel h (Nat.lt_succ_self _)

theorem eval_eq (ts : List Token) : eval env ts = evalSub env (eval env) ts :=
  evalSub_congr env fun _ hus => evalLoop_eq env hus

/-- What the evaluator makes of an operator and its two sides. -/
def cutAt (t : Token) (val1 val2 : Except Halt Word) : Except Halt Word :=
  match t with
  | .deref => val2.bind env.deref
  | .op o => strictNode BinOp.guard BinOp.apply o val1 val2
  | _ => .error .assertion

theorem evalSub_of_length {rec : List Token → Except Halt Word} {ts : List Token}
    (h : 2 ≤ ts.length) :
    evalSub env rec ts =
      if checkParentheses ts then rec (inner ts)
      else
        match findMainOp ts with
        | none => .error .assertion
        | some op =>
          match ts[op]? with
          | some .deref => (rec (ts.drop (op + 1))).bind env.deref
          | some (.op o) =>
            strictNode BinOp.guard BinOp.apply o (rec (ts.take op)) (rec (ts.drop (op + 1)))
          | _ => .error .assertion := by
  match ts, h with
  | t :: t' :: ts, _ => rfl

variable {env}

theorem eval_parenthesised {ts : List Token} (h : parenthesesMatch 0 ts = true) :
    eval env (.lparen :: ts ++ [.rparen]) = eval env ts := by
  rw [eval_eq, evalSub_of_length env (by simp), checkParentheses_wrap, if_pos h]
  simp [inner]

/-- An operand of several tokens that is not in parentheses. -/
theorem eval_crowded {ts : List Token} (hlen : 2 ≤ ts.length) (hops : topOps 0 ts = [])
    (h : checkParentheses ts = false) : eval env ts = .error .assertion := by
  rw [eval_eq, evalSub_of_length env hlen, h, findMainOp_none hops]
  rfl

/-- The range is cut at its main operator. -/
theorem eval_mainOp {ts l r : List Token} {t : Token} (h : MainOp ts l t r) :
    eval env ts = cutAt env t (eval env l) (eval env r) := by
  obtain ⟨rfl, hfound, hop, hdepth, -, -⟩ := h
  by_cases hlen : 2 ≤ (l ++ t :: r).length
  · have hopen : checkParentheses (l ++ t :: r) = false := by
      by_contra hwrap
      have hnone := (topOps_of_checkParentheses hlen (by simpa using hwrap)).1
      rw [topOps_split hop hdepth] at hnone
      exact absurd hnone (by simp)
    have hget : (l ++ t :: r)[l.length]? = some t := by simp
    have hdrop : (l ++ t :: r).drop (l.length + 1) = r := by simp
    rw [eval_eq, evalSub_of_length env hlen, hopen, if_neg (by decide), hfound]
    simp only [hget, hdrop, List.take_left]
    cases t <;> rfl
  · -- an operator alone fails as a token, and so do its missing operands
    rw [List.length_append, List.length_cons] at hlen
    obtain rfl : l = [] := List.eq_nil_of_length_eq_zero (by omega)
    obtain rfl : r = [] := List.eq_nil_of_length_eq_zero (by omega)
    cases t <;> first | rfl | cases hop

end Eval

end Sdb
end Jyd
