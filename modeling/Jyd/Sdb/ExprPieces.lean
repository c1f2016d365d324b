import Jyd.Sdb.ExprRanges

/-!
# ExprPieces — a range as a chain of pieces

The binary operators outside parentheses cut a range into pieces.  The evaluator folds the
canonical tree of this chain, whatever the pieces are; what it makes of a single piece is
told by the last dereference in it, or by its parentheses.
-/

namespace Jyd
namespace Sdb

open Hdl Text

/-! ## Cutting a range -/

def Token.binOp? : Token → Option BinOp
  | .op o => some o
  | _ => none

theorem Token.eq_op_of_binOp? {t : Token} {o : BinOp} (h : t.binOp? = some o) : t = .op o := by
  cases t with
  | op o' => exact congrArg Token.op (Option.some.inj h)
  | _ => cases h

def pieces : ℤ → List Token → Chain BinOp (List Token)
  | _, [] => ⟨[], []⟩
  | cnt, t :: ts =>
    let rest := pieces (cnt + t.turn) ts
    match if cnt = 0 then t.binOp? else none with
    | some o => Chain.join ⟨[], []⟩ o rest
    | none => ⟨t :: rest.head, rest.tail⟩

/-- The tokens of a chain. -/
def rangeOf (c : Chain BinOp (List Token)) : List Token :=
  c.head ++ c.tail.flatMap fun p => .op p.1 :: p.2

theorem rangeOf_join (c d : Chain BinOp (List Token)) (o : BinOp) :
    rangeOf (c.join o d) = rangeOf c ++ .op o :: rangeOf d := by
  simp [rangeOf, Chain.join]

theorem rangeOf_pieces (cnt : ℤ) (ts : List Token) : rangeOf (pieces cnt ts) = ts := by
  induction ts generalizing cnt with
  | nil => rfl
  | cons t ts ih =>
    rw [pieces]
    split
    · next o ho =>
        obtain ⟨-, hbin⟩ := Option.ite_none_right_eq_some.mp ho
        rw [rangeOf_join, ih, Token.eq_op_of_binOp? hbin]
        rfl
    · exact congrArg (t :: ·) (ih _)

theorem pieces_append_op {cnt : ℤ} {l : List Token} (h : cnt + depth l = 0) (o : BinOp)
    (r : List Token) : pieces cnt (l ++ .op o :: r) = (pieces cnt l).join o (pieces 0 r) := by
  induction l generalizing cnt with
  | nil =>
    obtain rfl : cnt = 0 := by simpa using h
    rfl
  | cons t l ih =>
    rw [depth_cons] at h
    rw [List.cons_append, pieces, pieces, ih (by omega)]
    split
    · rw [Chain.join_assoc]
    · rfl

/-- A chain is cut where the range is. -/
theorem pieces_cut {cnt : ℤ} {ts : List Token} {c d : Chain BinOp (List Token)} {o : BinOp}
    (h : pieces cnt ts = c.join o d) :
    ∃ l r, ts = l ++ .op o :: r ∧ cnt + depth l = 0 ∧ pieces cnt l = c ∧ pieces 0 r = d := by
  -- the cut is at this token, or further on in what the recursion returns
  induction ts generalizing cnt c with
  | nil => exact absurd (congrArg Chain.tail h) (by simp [pieces, Chain.join])
  | cons t ts ih =>
    rw [pieces] at h
    split at h
    · next o' ho =>
        obtain ⟨rfl, hbin⟩ := Option.ite_none_right_eq_some.mp ho
        obtain rfl := Token.eq_op_of_binOp? hbin
        obtain ⟨head, tail⟩ := c
        obtain ⟨rfl, htail⟩ := Chain.mk.inj h
        cases tail with
        | nil =>
          obtain ⟨hpair, htl⟩ := List.cons.inj htail
          obtain ⟨rfl, hhead⟩ := Prod.mk.inj hpair
          exact ⟨[], ts, rfl, rfl, rfl, Chain.ext hhead htl⟩
        | cons p tail =>
          obtain ⟨rfl, htl⟩ := List.cons.inj htail
          obtain ⟨l, r, rfl, hdepth, hl, hr⟩ := ih (c := ⟨_, tail⟩) (Chain.ext rfl htl)
          refine ⟨.op o' :: l, r, rfl, ?_, ?_, hr⟩
          · simpa [Token.turn] using hdepth
          · rw [pieces, ho, hl]
            rfl
    · next hnone =>
        obtain ⟨head, tail⟩ := c
        obtain ⟨rfl, htail⟩ := Chain.mk.inj h
        obtain ⟨l, r, rfl, hdepth, hl, hr⟩ := ih (c := ⟨_, tail⟩) (Chain.ext rfl htail)
        refine ⟨t :: l, r, rfl, ?_, ?_, hr⟩
        · rw [depth_cons]
          omega
        · rw [pieces, hnone, hl]

theorem pieces_ops (cnt : ℤ) (ts : List Token) :
    (pieces cnt ts).ops = (topOps cnt ts).filterMap Token.binOp? := by
  induction ts generalizing cnt with
  | nil => rfl
  | cons t ts ih =>
    rw [pieces, topOps, List.filterMap_append, ← ih]
    by_cases hcnt : cnt = 0
    · cases t <;> simp [hcnt, Token.binOp?, Token.isOperator, opPriority, Chain.ops, Chain.join]
    · simp [hcnt, Chain.ops]

theorem mem_pieces_ops {cnt : ℤ} {ts : List Token} {o : BinOp} :
    o ∈ (pieces cnt ts).ops ↔ .op o ∈ topOps cnt ts := by
  rw [pieces_ops, List.mem_filterMap]
  constructor
  · rintro ⟨t, ht, ho⟩
    rwa [Token.eq_op_of_binOp? ho] at ht
  · exact fun h => ⟨_, h, rfl⟩

/-! ## A single piece -/

/-- A range without a binary operator outside parentheses. -/
def Piece (ts : List Token) : Prop := ∀ o, Token.op o ∉ topOps 0 ts

theorem Piece.pieces_eq {ts : List Token} (h : Piece ts) : pieces 0 ts = ⟨ts, []⟩ := by
  have htail : (pieces 0 ts).tail = [] := by
    have hops : (pieces 0 ts).ops = [] :=
      List.eq_nil_iff_forall_not_mem.mpr fun o ho => h o (mem_pieces_ops.mp ho)
    exact List.map_eq_nil_iff.mp hops
  have hrange := rangeOf_pieces 0 ts
  rw [rangeOf, htail, List.flatMap_nil, List.append_nil] at hrange
  exact Chain.ext hrange htail

theorem Piece.of_topOps_nil {ts : List Token} (h : topOps 0 ts = []) : Piece ts :=
  fun o ho => by rw [h] at ho; cases ho

theorem mem_operands_piece {ts x : List Token} (h : x ∈ (pieces 0 ts).operands) : Piece x := by
  have hall : ∀ (cnt : ℤ) (ts : List Token),
      (∀ o, Token.op o ∉ topOps cnt (pieces cnt ts).head) ∧
        ∀ p ∈ (pieces cnt ts).tail, Piece p.2 := by
    intro cnt ts
    induction ts generalizing cnt with
    | nil => exact ⟨fun o ho => absurd ho List.not_mem_nil, fun p hp => absurd hp List.not_mem_nil⟩
    | cons t ts ih =>
      obtain ⟨hhead, htail⟩ := ih (cnt + t.turn)
      rw [pieces]
      split
      · next o ho =>
          obtain ⟨rfl, hbin⟩ := Option.ite_none_right_eq_some.mp ho
          obtain rfl := Token.eq_op_of_binOp? hbin
          refine ⟨fun o ho => absurd ho List.not_mem_nil, fun p hp => ?_⟩
          rcases List.mem_cons.mp hp with rfl | hp
          · exact hhead
          · exact htail p hp
      · next hnone =>
          refine ⟨fun o ho => ?_, htail⟩
          rw [topOps, List.mem_append] at ho
          rcases ho with ho | ho
          · split at ho
            · next hop =>
                rw [List.mem_singleton] at ho
                rw [if_pos hop.1, ← ho] at hnone
                cases hnone
            · cases ho
          · exact hhead o ho
  rcases List.mem_cons.mp h with rfl | h
  · exact (hall 0 ts).1
  · obtain ⟨p, hp, rfl⟩ := List.mem_map.mp h
    exact (hall 0 ts).2 p hp

theorem length_le_of_mem_operands {ts x : List Token} (h : x ∈ (pieces 0 ts).operands) :
    x.length ≤ ts.length := by
  have hrange := congrArg List.length (rangeOf_pieces 0 ts)
  rw [rangeOf, List.length_append] at hrange
  rcases List.mem_cons.mp h with rfl | h
  · omega
  · obtain ⟨p, hp, rfl⟩ := List.mem_map.mp h
    have hmem : Token.op p.1 :: p.2 ∈ (pieces 0 ts).tail.map fun p => Token.op p.1 :: p.2 :=
      List.mem_map.mpr ⟨p, hp, rfl⟩
    have hsub := (List.sublist_flatten_of_mem hmem).length_le
    rw [← List.flatMap_def] at hsub
    rw [List.length_cons] at hsub
    omega

/-- A range has one last dereference outside parentheses. -/
theorem deref_cut_unique {l r l' r' : List Token} (h : l ++ .deref :: r = l' ++ .deref :: r')
    (hl : depth l = 0) (hl' : depth l' = 0) (hr : topOps 0 r = []) (hr' : topOps 0 r' = []) :
    l = l' ∧ r = r' := by
  -- one cut behind the other would leave a dereference on its right
  have hbehind : ∀ {l r mid r' : List Token}, depth l = 0 → depth (l ++ .deref :: mid) = 0 →
      r = mid ++ .deref :: r' → topOps 0 r ≠ [] := by
    rintro l r mid r' hl hmid rfl
    rw [depth_append, depth_cons, hl] at hmid
    rw [topOps_split rfl (by simpa [Token.turn] using hmid)]
    simp
  rcases List.append_eq_append_iff.mp h with ⟨mid, rfl, hd⟩ | ⟨mid, rfl, hd⟩
  · cases mid with
    | nil => exact ⟨by simp, (List.cons.inj hd).2⟩
    | cons t mid =>
      obtain ⟨rfl, htail⟩ := List.cons.inj hd
      exact absurd hr (hbehind hl hl' htail)
  · cases mid with
    | nil => exact ⟨by simp, (List.cons.inj hd).2.symm⟩
    | cons t mid =>
      obtain ⟨rfl, htail⟩ := List.cons.inj hd
      exact absurd hr' (hbehind hl' hl htail)

theorem BinOp.priority_le (o : BinOp) : o.priority ≤ 13 := by
  cases o <;> decide

/-- A dereference binds tighter than any other operator, so it is the main one only where it
is the last and there is no other kind. -/
theorem MainOp.of_deref {ts l r : List Token} (h : MainOp ts l .deref r) :
    Piece ts ∧ topOps 0 r = [] := by
  obtain ⟨rfl, -, hop, hdepth, hleft, hright⟩ := h
  have hnone : topOps 0 r = [] := List.eq_nil_iff_forall_not_mem.mpr fun u hu =>
    absurd (hright u hu) (Nat.not_lt.mpr u.priority_le)
  refine ⟨fun o ho => ?_, hnone⟩
  rw [topOps_split hop hdepth, hnone, List.mem_append, List.mem_singleton] at ho
  rcases ho with ho | ho
  · exact absurd ((hleft _ ho).trans o.priority_le) (by decide)
  · cases ho

/-! ## The parts of a range are shorter -/

theorem length_left_lt (l : List Token) (t : Token) (r : List Token) :
    l.length < (l ++ t :: r).length := by
  rw [List.length_append, List.length_cons]
  omega

theorem length_right_lt (l : List Token) (t : Token) (r : List Token) :
    r.length < (l ++ t :: r).length := by
  rw [List.length_append, List.length_cons]
  omega

theorem length_inner_lt (us : List Token) :
    us.length < (Token.lparen :: us ++ [Token.rparen]).length := by
  rw [List.length_append, List.length_cons]
  omega

/-! ## The tree that the evaluator folds -/

variable (env : Env)

/-- Evaluate a chain in the order of its tree. -/
def evalTree (t : OpTree BinOp (List Token)) : Except Halt Word :=
  t.fold (eval env) (strictNode BinOp.guard BinOp.apply)

theorem eval_tree (ts : List Token) :
    ∃ t : OpTree BinOp (List Token),
      t.Canonical BinOp.priority ∧ t.flatten = pieces 0 ts ∧ eval env ts = evalTree env t := by
  induction hn : ts.length using Nat.strong_induction_on generalizing ts with
  | _ n ih =>
    subst hn
    -- a single piece is left to the evaluator; otherwise the main operator is a binary one
    by_cases hpiece : Piece ts
    · exact ⟨.leaf ts, trivial, hpiece.pieces_eq.symm, rfl⟩
    · rcases findMainOp_spec ts with ⟨-, hnone⟩ | ⟨l, t, r, hmain⟩
      · exact absurd (Piece.of_topOps_nil hnone) hpiece
      · obtain ⟨o, rfl⟩ : ∃ o, t = .op o := by
          cases t with
          | op o => exact ⟨o, rfl⟩
          | deref => exact absurd hmain.of_deref.1 hpiece
          | _ => cases hmain.isOperator
        have heval : eval env ts = _ := eval_mainOp hmain
        obtain ⟨rfl, -, -, hdepth, hleft, hright⟩ := hmain
        obtain ⟨tl, htl, hfl, hel⟩ := ih l.length (length_left_lt l _ r) l rfl
        obtain ⟨tr, htr, hfr, her⟩ := ih r.length (length_right_lt l _ r) r rfl
        refine ⟨.node tl o tr, ⟨htl, htr, ?_, ?_⟩, ?_, ?_⟩
        · exact fun u hu => hleft _ (mem_pieces_ops.mp (hfl ▸ hu))
        · exact fun u hu => hright _ (mem_pieces_ops.mp (hfr ▸ hu))
        · rw [OpTree.flatten, hfl, hfr, pieces_append_op ((zero_add _).trans hdepth)]
        · rw [heval, hel, her]
          rfl

/-- Division is the one operator with a check, and nothing binds tighter. -/
theorem guardsBindTightest : GuardsBindTightest BinOp.priority BinOp.guard := by
  intro o b h o'
  cases o with
  | div => exact o'.priority_le
  | _ => exact absurd rfl h

theorem BinOp.guard_cases (o : BinOp) (v : Word) :
    o.guard v = .ok ⟨⟩ ∨ o.guard v = .error (.failure (some .divisionByZero)) := by
  by_cases h : o = .div ∧ v = 0
  · exact .inr (if_pos h)
  · exact .inl (if_neg h)

/-- The evaluator looks at the pieces from the left. -/
theorem eval_check (ts : List Token) :
    (eval env ts).map (fun _ => PUnit.unit) = (pieces 0 ts).check (eval env) BinOp.guard := by
  obtain ⟨t, hcanon, hflat, heval⟩ := eval_tree env ts
  rw [heval, ← hflat, evalTree, OpTree.fold_check guardsBindTightest hcanon]

variable {env}

theorem eval_ok_iff_check {ts : List Token} :
    (∃ v, eval env ts = .ok v) ↔ (pieces 0 ts).check (eval env) BinOp.guard = .ok ⟨⟩ := by
  rw [← eval_check]
  cases eval env ts with
  | error f => exact ⟨fun ⟨v, hv⟩ => (by cases hv), fun h => (by cases h)⟩
  | ok v => exact ⟨fun _ => rfl, fun _ => ⟨v, rfl⟩⟩

theorem eval_error_iff_check {ts : List Token} {f : Halt} :
    eval env ts = .error f ↔ (pieces 0 ts).check (eval env) BinOp.guard = .error f := by
  rw [← eval_check]
  cases eval env ts with
  | error g =>
    exact ⟨fun h => congrArg _ (Except.error.inj h), fun h => congrArg _ (Except.error.inj h)⟩
  | ok v => exact ⟨fun h => (by cases h), fun h => (by cases h)⟩

/-! ## What becomes of a piece -/

/-- What a piece can be. -/
inductive PieceForm : List Token → Prop
  | nil : PieceForm []
  | single (t : Token) (ht : t.isOperator = false) : PieceForm [t]
  | parens (us : List Token) (hmatch : parenthesesMatch 0 us = true) :
      PieceForm (.lparen :: us ++ [.rparen])
  | crowded (ts : List Token) (hlen : 2 ≤ ts.length) (hops : topOps 0 ts = [])
      (hopen : checkParentheses ts = false) : PieceForm ts
  | deref (l r : List Token) (hpiece : Piece l) (hl : depth l = 0) (hr : topOps 0 r = []) :
      PieceForm (l ++ .deref :: r)

theorem piece_deref {l r : List Token} (hpiece : Piece l) (hl : depth l = 0)
    (hr : topOps 0 r = []) : Piece (l ++ .deref :: r) := by
  intro o ho
  rw [topOps_split rfl hl, hr, List.mem_append, List.mem_singleton] at ho
  rcases ho with ho | ho
  · exact hpiece o ho
  · cases ho

theorem Piece.of_deref {l r : List Token} (h : Piece (l ++ .deref :: r)) (hl : depth l = 0) :
    Piece l :=
  fun o ho => h o (by rw [topOps_split rfl hl]; exact List.mem_append_left _ ho)

theorem Piece.form {ts : List Token} (h : Piece ts) : PieceForm ts := by
  rcases findMainOp_spec ts with ⟨-, hnone⟩ | ⟨l, t, r, hmain⟩
  · -- no operator at all: the length and the parentheses decide
    match ts with
    | [] => exact .nil
    | [t] =>
      refine .single t (Bool.not_eq_true _ ▸ fun hop => ?_)
      simp [topOps, hop] at hnone
    | t :: t' :: ts =>
      by_cases hwrap : checkParentheses (t :: t' :: ts) = true
      · obtain ⟨hcut, hmatch⟩ := checkParentheses_cut (by simp) hwrap
        rw [hcut]
        exact .parens _ hmatch
      · exact .crowded _ (by simp) hnone (by simpa using hwrap)
  · cases t with
    | deref =>
      have hr := hmain.of_deref.2
      obtain ⟨rfl, -, -, hl, -, -⟩ := hmain
      exact .deref l r (h.of_deref hl) hl hr
    | op o =>
      refine absurd ?_ (h o)
      rw [hmain.cut, topOps_split hmain.isOperator hmain.depth_left]
      simp
    | _ => cases hmain.isOperator

/-- The last dereference of a piece reads what is behind it; what is in front of it is
ignored. -/
theorem eval_deref {l r : List Token} (hpiece : Piece l) (hl : depth l = 0)
    (hr : topOps 0 r = []) : eval env (l ++ .deref :: r) = (eval env r).bind env.deref := by
  have hmem : Token.deref ∈ topOps 0 (l ++ .deref :: r) := by
    rw [topOps_split rfl hl]
    simp
  rcases findMainOp_spec (l ++ .deref :: r) with ⟨-, hnone⟩ | ⟨l', t, r', hmain⟩
  · rw [hnone] at hmem
    cases hmem
  · obtain rfl : t = .deref := by
      cases t with
      | deref => rfl
      | op o =>
        refine absurd ?_ (piece_deref hpiece hl hr o)
        rw [hmain.cut, topOps_split hmain.isOperator hmain.depth_left]
        simp
      | _ => cases hmain.isOperator
    obtain rfl : r = r' := (deref_cut_unique hmain.cut hl hmain.depth_left hr hmain.of_deref.2).2
    exact eval_mainOp hmain

end Sdb
end Jyd
