import Jyd.Sdb.ExprReading

/-!
# ExprStuck — the expressions on which the evaluators assert or fail without a word

The operator search is made for every operand position that holds more than one token and is
not in parentheses; if there is no operator outside parentheses, it asserts.  A position that
is empty or holds a lone parenthesis clears the success flag and prints nothing.  The
evaluator comes to a position only if everything in front of it has a value: what is wrong
further to the left ends the evaluation first.
-/

namespace Jyd
namespace Sdb

open Hdl Text

/-! ## Where the evaluator ends without a message -/

/-- What an operand has in front of it: nothing, or an expression with a value and an
operator. -/
inductive Front (env : Env) : List Token → Prop
  | start : Front env []
  | behind {e : Reading} {v : Word} (he : e.Valid) (hv : e.run env = .ok v) (o : BinOp) :
      Front env (e.tokens ++ [.op o])

/-- A piece ends with the range or before an operator outside parentheses. -/
def EndsBefore (x rest : List Token) : Prop :=
  rest = [] ∨ depth x = 0 ∧ ∃ o r, rest = .op o :: r

inductive Stuck (env : Env) : Halt → List Token → Prop
  /-- Several tokens, none of them an operator, and not in parentheses. -/
  | crowded {x : List Token} (hlen : 2 ≤ x.length) (hops : topOps 0 x = [])
      (hopen : checkParentheses x = false) : Stuck env .assertion x
  /-- A load that does not come back. -/
  | unmapped {ignored : List Token} {e : Reading} {a : Word} (hpiece : Piece ignored)
      (hdepth : depth ignored = 0) (he : e.Valid) (hop : e.isOperand = true)
      (ha : e.run env = .ok a) (hload : env.load a = none) :
      Stuck env .assertion (ignored ++ .deref :: e.tokens)
  | missing : Stuck env (.failure none) []
  | paren {t : Token} (ht : t = .lparen ∨ t = .rparen) : Stuck env (.failure none) [t]
  | parens {f : Halt} {us : List Token} (hmatch : parenthesesMatch 0 us = true)
      (h : Stuck env f us) : Stuck env f (.lparen :: us ++ [.rparen])
  | deref {f : Halt} {ignored r : List Token} (hpiece : Piece ignored) (hdepth : depth ignored = 0)
      (hr : topOps 0 r = []) (h : Stuck env f r) : Stuck env f (ignored ++ .deref :: r)
  | piece {f : Halt} {front x rest : List Token} (hfront : Front env front) (hpiece : Piece x)
      (hends : EndsBefore x rest) (h : Stuck env f x) : Stuck env f (front ++ (x ++ rest))

variable {env : Env} {f : Halt}

/-! ## It does end there -/

theorem pieces_head {x rest : List Token} (hpiece : Piece x) (hends : EndsBefore x rest) :
    (pieces 0 (x ++ rest)).head = x := by
  rcases hends with rfl | ⟨hdepth, o, r, rfl⟩
  · rw [List.append_nil, hpiece.pieces_eq]
  · rw [pieces_append_op ((zero_add _).trans hdepth), hpiece.pieces_eq]
    rfl

theorem eval_piece_error {front x rest : List Token} (hfront : Front env front)
    (hpiece : Piece x) (hends : EndsBefore x rest) (hx : eval env x = .error f) :
    eval env (front ++ (x ++ rest)) = .error f := by
  have hhead := pieces_head hpiece hends
  rw [eval_error_iff_check]
  cases hfront with
  | start =>
    rw [List.nil_append, Chain.check, hhead, hx]
    rfl
  | behind he hv o =>
    have hok := eval_ok_iff_check.mp ⟨_, he.eval_eq_run.trans hv⟩
    rw [List.append_assoc, List.singleton_append,
      pieces_append_op ((zero_add _).trans he.depth_eq), Chain.check_join, hok, hhead]
    change checkTail _ _ _ = _
    rw [checkTail, hx]
    rfl

theorem Stuck.eval_eq {ts : List Token} (h : Stuck env f ts) : eval env ts = .error f := by
  induction h with
  | crowded hlen hops hopen => exact eval_crowded hlen hops hopen
  | unmapped hpiece hdepth he hop ha hload =>
    rw [eval_deref hpiece hdepth (he.topOps_operand hop), he.eval_eq_run, ha]
    simp [Except.bind, Env.deref, hload]
  | missing => rfl
  | paren ht => rcases ht with rfl | rfl <;> rfl
  | parens hmatch _ ih => rw [eval_parenthesised hmatch, ih]
  | deref hpiece hdepth hr _ ih =>
    rw [eval_deref hpiece hdepth hr, ih]
    rfl
  | piece hfront hpiece hends _ ih => exact eval_piece_error hfront hpiece hends ih

/-! ## And nowhere else -/

section Halts

variable (hf : ∀ m, f ≠ .failure (some m))

include hf

/-- Registers and numbers have a value or a message. -/
theorem stuck_of_token {t : Token} (hop : t.isOperator = false) (ht : evalToken env t = .error f) :
    Stuck env f [t] := by
  cases t with
  | op o => cases hop
  | deref => cases hop
  | lparen => exact Except.error.inj ht ▸ .paren (.inl rfl)
  | rparen => exact Except.error.inj ht ▸ .paren (.inr rfl)
  | reg str =>
    rw [evalToken] at ht
    split at ht
    · cases ht
    · exact absurd (Except.error.inj ht).symm (hf _)
  | hex str => cases ht
  | dec str => cases ht

/-- A piece on which the evaluator ends so, if the shorter ranges are known. -/
theorem stuck_of_piece {x : List Token} (hpiece : Piece x) (hx : eval env x = .error f)
    (ih : ∀ us : List Token, us.length < x.length → eval env us = .error f →
      Stuck env f us) : Stuck env f x := by
  cases hpiece.form with
  | nil => exact Except.error.inj hx ▸ .missing
  | single t ht => exact stuck_of_token hf ht hx
  | parens us hmatch =>
    rw [eval_parenthesised hmatch] at hx
    exact .parens hmatch (ih us (length_inner_lt us) hx)
  | crowded _ hlen hops hopen =>
    rw [eval_crowded hlen hops hopen] at hx
    exact Except.error.inj hx ▸ .crowded hlen hops hopen
  | deref l r hl hdepth hr =>
    rw [eval_deref hl hdepth hr] at hx
    rcases bind_eq_error_iff.mp hx with hr' | ⟨a, ha, hload⟩
    · exact .deref hl hdepth hr (ih r (length_right_lt l _ r) hr')
    · obtain ⟨e, he, rfl, hrun⟩ := Reading.eval_ok_iff.mp ha
      rw [Env.deref] at hload
      split at hload
      · cases hload
      · rename_i hnone
        exact Except.error.inj hload ▸
          .unmapped hl hdepth he (Reading.operand_of_topOps he hr) hrun hnone

omit hf in
/-- The first piece of a range. -/
theorem exists_endsBefore (ts : List Token) :
    ∃ rest, ts = (pieces 0 ts).head ++ rest ∧ EndsBefore (pieces 0 ts).head rest := by
  cases hc : pieces 0 ts with
  | mk x ps =>
    have hrange := rangeOf_pieces 0 ts
    rw [hc] at hrange
    cases ps with
    | nil => exact ⟨[], by simpa [rangeOf] using hrange.symm, .inl rfl⟩
    | cons p ps =>
      obtain ⟨l, r, rfl, hdepth, hl, -⟩ :=
        pieces_cut (c := ⟨x, []⟩) (o := p.1) (d := ⟨p.2, ps⟩) hc
      have hx : l = x := by
        rw [← rangeOf_pieces 0 l, hl]
        simp [rangeOf]
      rw [zero_add, hx] at hdepth
      exact ⟨.op p.1 :: r, by rw [hx], .inr ⟨hdepth, p.1, r, rfl⟩⟩

theorem stuck_of_eval {ts : List Token} (h : eval env ts = .error f) : Stuck env f ts := by
  induction hn : ts.length using Nat.strong_induction_on generalizing ts with
  | _ n ih =>
    subst hn
    -- the piece with the fault, at the beginning or behind an operator
    have hstuck : ∀ us : List Token, us.length ≤ ts.length →
        eval env (pieces 0 us).head = .error f →
        ∃ x rest, us = x ++ rest ∧ Piece x ∧ EndsBefore x rest ∧ Stuck env f x := by
      intro us hus hhead
      obtain ⟨rest, hcut, hends⟩ := exists_endsBefore us
      have hmem : (pieces 0 us).head ∈ (pieces 0 us).operands := List.mem_cons_self
      have hpiece := mem_operands_piece hmem
      refine ⟨_, rest, hcut, hpiece, hends, stuck_of_piece hf hpiece hhead fun vs hvs hv => ?_⟩
      exact ih vs.length (hvs.trans_le ((length_le_of_mem_operands hmem).trans hus)) hv rfl
    rcases Chain.check_error (eval_error_iff_check.mp h) with
      hhead | ⟨c, o, d, hcd, hok, hhead | ⟨b, hguard⟩⟩
    · obtain ⟨x, rest, rfl, hpiece, hends, hx⟩ := hstuck ts le_rfl hhead
      exact .piece .start hpiece hends hx
    · obtain ⟨l, r, rfl, -, rfl, rfl⟩ := pieces_cut hcd
      obtain ⟨v, hv⟩ := eval_ok_iff_check.mpr hok
      obtain ⟨e, he, rfl, hrun⟩ := Reading.eval_ok_iff.mp hv
      obtain ⟨x, rest, rfl, hpiece, hends, hx⟩ := hstuck r (length_right_lt _ _ r).le hhead
      have hfront := Stuck.piece (.behind he hrun o) hpiece hends hx
      rwa [List.append_assoc, List.singleton_append] at hfront
    · rcases o.guard_cases b with hb | hb
      · cases hb.symm.trans hguard
      · exact absurd (Except.error.inj (hguard.symm.trans hb)) (hf _)

theorem eval_error_iff {ts : List Token} : eval env ts = .error f ↔ Stuck env f ts :=
  ⟨stuck_of_eval hf, Stuck.eval_eq⟩

omit hf in
/-- A reading that has no value has printed why, or asserts. -/
theorem Reading.run_ne_silent {e : Reading} (h : e.Valid) : e.run env ≠ .error (.failure none) := by
  induction e with
  | token t =>
    cases t with
    | reg str =>
      rw [run, evalToken]
      split <;> exact fun hno => by cases hno
    | hex _ => exact fun hno => by cases hno
    | dec _ => exact fun hno => by cases hno
    | _ => cases h
  | parens e ih => exact ih h.1
  | deref ignored e ih =>
    intro hno
    rcases bind_eq_error_iff.mp hno with hno | ⟨a, -, hno⟩
    · exact ih h.1 hno
    · rw [Env.deref] at hno
      split at hno <;> cases hno
  | binary l o r ihl ihr =>
    intro hno
    rcases bind_eq_error_iff.mp hno with hno | ⟨a, -, hno⟩
    · exact ihl h.1 hno
    rcases bind_eq_error_iff.mp hno with hno | ⟨b, -, hno⟩
    · exact ihr h.2.1 hno
    rcases bind_eq_error_iff.mp hno with hno | ⟨_, -, hno⟩
    · rcases o.guard_cases b with hb | hb <;> cases hb.symm.trans hno
    · cases hno

end Halts

/-! ## The two debuggers -/

/-- The text is an expression: its tokens have a reading that ignores nothing. -/
def WellFormed (e : List Char) : Prop :=
  ∃ r : Reading, r.Valid ∧ r.Whole ∧ makeToken e = .ok r.tokens

/-- No value is found by ignoring what is in front of a dereference. -/
def ReadsWhole (env : Env) (tokens : List Token) : Prop :=
  ∀ r : Reading, r.Valid → r.tokens = tokens → (∃ v, r.run env = .ok v) → r.Whole

namespace Debugger

/-- The entry point returns, and reports a malformed text: NEMU's `expr` by `*success`, the
simulator's `expr_t::eval`, which has no such flag, by a message. -/
def ReportsMalformed : Debugger → List Char → Prop
  | nemu cpu, e => Sdb.expr cpu e ≠ .error .assertion ∧ ∀ v, Sdb.expr cpu e = .ok v → WellFormed e
  | sdb fr fm, e =>
    ∃ v printed, exprEval fr fm e = some (v, printed) ∧ (printed = none → WellFormed e)

/-- The evaluator comes to no operand on which its operator search asserts, nor to a
dereference of which it ignores what is in front; in the simulator it does not miss an operand
either, since nothing would tell. -/
def Sound : Debugger → List Token → Prop
  | d@(nemu _), tokens => ¬ Stuck d.env .assertion tokens ∧ ReadsWhole d.env tokens
  | d@(sdb _ _), tokens =>
    ¬ Stuck d.env .assertion tokens ∧ ReadsWhole d.env tokens ∧
      ¬ Stuck d.env (.failure none) tokens

theorem readsWhole_iff {env : Env} {e : List Char} {tokens : List Token}
    (htok : makeToken e = .ok tokens) :
    ReadsWhole env tokens ↔ ∀ v, evalText env e = .ok v → WellFormed e := by
  rw [evalText_of_makeToken htok]
  constructor
  · intro hwhole v hv
    obtain ⟨r, hr, htokens, hrun⟩ := Reading.eval_ok_iff.mp hv
    exact ⟨r, hr, hwhole r hr htokens ⟨v, hrun⟩, by rw [htok, htokens]⟩
  · rintro hform r hr htokens ⟨v, hv⟩
    obtain ⟨r', hr', hw, hmake⟩ := hform v (Reading.eval_ok_iff.mpr ⟨r, hr, htokens, hv⟩)
    rw [htok, ← htokens] at hmake
    rwa [hr.unique hr' (Except.ok.inj hmake)]

/-- An expression that has no value has a message, or asserts. -/
theorem WellFormed.evalText_ne {env : Env} {e : List Char} (h : WellFormed e) :
    evalText env e ≠ .error (.failure none) := by
  obtain ⟨r, hr, -, hmake⟩ := h
  rw [evalText_of_makeToken hmake, hr.eval_eq_run]
  exact Reading.run_ne_silent hr

theorem nemu_reports_iff {cpu : NemuState} {e : List Char} :
    (nemu cpu).ReportsMalformed e ↔ evalText (nemu cpu).env e ≠ .error .assertion ∧
      ∀ v, evalText (nemu cpu).env e = .ok v → WellFormed e := by
  rw [ReportsMalformed, Sdb.expr, flagged]
  cases evalText (nemu cpu).env e with
  | ok v => simp [Except.mapError]
  | error f => cases f <;> simp [Except.mapError, Halt.stop]

theorem sdb_reports_iff {fr : List Char → Option (BitVec 64)} {fm : Word → Option Word}
    {e : List Char} :
    (sdb fr fm).ReportsMalformed e ↔ evalText (sdb fr fm).env e ≠ .error .assertion ∧
      (∀ v, evalText (sdb fr fm).env e = .ok v → WellFormed e) ∧
      evalText (sdb fr fm).env e ≠ .error (.failure none) := by
  have hsilent := @WellFormed.evalText_ne (sdb fr fm).env e
  rw [ReportsMalformed, exprEval]
  cases hrun : evalText (sdb fr fm).env e with
  | ok v => simp
  | error f =>
    rw [hrun] at hsilent
    cases f with
    | assertion => simp
    | failure printed => cases printed <;> simp_all

theorem reports_malformed_iff (d : Debugger) (e : List Char) (hlim : WithinLimits e) :
    d.ReportsMalformed e ↔ ∀ tokens, makeToken e = .ok tokens → d.Sound tokens := by
  cases htok : makeToken e with
  | error f =>
    -- the tokenizer has printed where it stopped
    obtain ⟨rest, rfl⟩ := makeToken_error hlim f htok
    have hrun : evalText d.env e = .error (.failure (some (.noMatch rest))) := by
      rw [evalText, htok]
      rfl
    refine ⟨fun _ tokens h => (by cases h), fun _ => ?_⟩
    cases d with
    | nemu cpu => simp [nemu_reports_iff, hrun]
    | sdb fr fm => simp [sdb_reports_iff, hrun]
  | ok tokens =>
    have hassert : evalText d.env e ≠ .error .assertion ↔ ¬ Stuck d.env .assertion tokens := by
      rw [evalText_of_makeToken htok, Ne, eval_error_iff (fun _ h => by cases h)]
    have hsilent : evalText d.env e ≠ .error (.failure none) ↔
        ¬ Stuck d.env (.failure none) tokens := by
      rw [evalText_of_makeToken htok, Ne, eval_error_iff (fun _ h => by cases h)]
    simp only [Except.ok.injEq, forall_eq']
    cases d with
    | nemu cpu => rw [nemu_reports_iff, hassert, ← readsWhole_iff htok, Sound]
    | sdb fr fm => rw [sdb_reports_iff, hassert, ← readsWhole_iff htok, hsilent, Sound]

theorem reports_malformed_iff_sum :
    let d := sdb (fun _ => none) (fun _ => none)
    d.ReportsMalformed ['1', '+', '2'] ∧
      ∀ tokens, makeToken ['1', '+', '2'] = .ok tokens → d.Sound tokens := by
  intro d
  have hreports : d.ReportsMalformed ['1', '+', '2'] := by
    refine ⟨3, none, rfl, fun _ => ⟨.binary (.token (.dec ['1'])) .add (.token (.dec ['2'])), ?_, ?_⟩⟩
    · exact ⟨rfl, rfl, fun _ h => absurd h List.not_mem_nil, fun _ h => absurd h List.not_mem_nil⟩
    · exact ⟨⟨trivial, trivial⟩, rfl⟩
  exact ⟨hreports, (reports_malformed_iff d _ (by decide)).mp hreports⟩

/-- Two operands and no operator abort both debuggers; an operator without its operand is 0
to the callers of the simulator, and nothing is printed. -/
theorem malformed_not_reported :
    (∀ d : Debugger, WithinLimits ['1', ' ', '2'] ∧
      evalText d.env ['1', ' ', '2'] = .error .assertion ∧ ¬ d.ReportsMalformed ['1', ' ', '2']) ∧
      exprEval (fun _ => none) (fun _ => none) ['1', '+'] = some (0, none) ∧
      ¬ (sdb (fun _ => none) (fun _ => none)).ReportsMalformed ['1', '+'] := by
  refine ⟨fun d => ⟨by decide, rfl, fun h => ?_⟩, rfl, fun h => (sdb_reports_iff.mp h).2.2 rfl⟩
  cases d with
  | nemu cpu => exact (nemu_reports_iff.mp h).1 rfl
  | sdb fr fm => exact (sdb_reports_iff.mp h).1 rfl

-- what is in front of the dereference is never looked at
example : exprEval (fun _ => none) some [')', '(', '*', '2'] = some (2, none) := rfl

end Debugger

end Sdb
end Jyd
