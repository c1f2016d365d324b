import Jyd.Sdb.ExprReading
import Jyd.Text.Numeral

/-!
# ExprRender — expressions that are written out and evaluated

An expression tree is rendered with the parentheses its precedences need.  The tokenizer
takes a star behind a dereference for a multiplication, so a dereference of a dereference is
lost; every other tree is read back as it was.
-/

namespace Jyd
namespace Sdb

open Hdl Text

/-! ## Expression trees -/

/-- A name that the rule for registers matches. -/
structure RegName where
  letters : List Char
  digits : List Char
  letters_ne : letters ≠ []
  isAlpha : ∀ c ∈ letters, c.isAlpha = true
  isDigit : ∀ c ∈ digits, c.isDigit = true

def RegName.text (r : RegName) : List Char := r.letters ++ r.digits

inductive ExprTree
  | dec (n : Fin (2 ^ 31))
  | hex (n : Fin (2 ^ 31))
  | reg (r : RegName)
  | deref (e : ExprTree)
  | binary (l : ExprTree) (o : BinOp) (r : ExprTree)

namespace ExprTree

section Meaning

variable (env : Env)

def value : ExprTree → Word
  | dec n | hex n => BitVec.ofNat 32 n
  | reg r => (env.reg r.text).getD 0
  | deref e => (env.load e.value).getD 0
  | binary l o r => o.apply l.value r.value

/-- Some divisor is zero. -/
def zeroDivisor : ExprTree → Bool
  | dec _ | hex _ | reg _ => false
  | deref e => e.zeroDivisor
  | binary l o r => l.zeroDivisor || r.zeroDivisor || (o = .div && r.value env = 0)

/-- Its registers exist and what it dereferences is mapped. -/
def Defined : ExprTree → Prop
  | dec _ | hex _ => True
  | reg r => (env.reg r.text).isSome = true
  | deref e =>
    e.Defined ∧ (e.zeroDivisor env = false → (env.load (e.value env)).isSome = true)
  | binary l _ r => l.Defined ∧ r.Defined

def outcome (e : ExprTree) : Except Stop Word :=
  if e.zeroDivisor env then .error .failure else .ok (e.value env)

end Meaning

/-! ## Rendering -/

def level : ExprTree → ℕ
  | binary _ o _ => o.priority
  | _ => 15

def enclose (b : Bool) (ts : List Token) : List Token :=
  if b then .lparen :: ts ++ [.rparen] else ts

/-- Left operands may have the level of their operator, right ones must be above it. -/
def rendered : ExprTree → List Token
  | dec n => [.dec (digitText (numeral 10 n))]
  | hex n => [.hex ('0' :: 'x' :: digitText (numeral 16 n))]
  | reg r => [.reg ('$' :: r.text)]
  | deref e => .op .mul :: enclose (e.level < 15) e.rendered
  | binary l o r =>
    enclose (l.level < o.priority) l.rendered ++
      .op o :: enclose (r.level ≤ o.priority) r.rendered

def text (blanks : ℕ → List Char) (e : ExprTree) : List Char := spell blanks 0 e.rendered

def FitsTable (e : ExprTree) : Prop :=
  e.rendered.length ≤ MAX_TOKEN_NUM ∧ ∀ t ∈ e.rendered, t.text.length < STR_SIZE

instance : DecidablePred FitsTable := fun _ => inferInstanceAs (Decidable (_ ∧ _))

def isDeref : ExprTree → Bool
  | deref _ => true
  | _ => false

/-- Some dereference is applied to a dereference. -/
def nestedDeref : ExprTree → Bool
  | deref e => e.isDeref || e.nestedDeref
  | binary l _ r => l.nestedDeref || r.nestedDeref
  | _ => false

/-! ## The tokens of a tree -/

/-- What the tokenizer records; `starred` tells that a star at its beginning is taken for a
multiplication. -/
def tokens (starred : Bool) : ExprTree → List Token
  | deref e =>
    (if starred then .op .mul else .deref) ::
      enclose (e.level < 15) (e.tokens (!decide (e.level < 15) && !starred))
  | binary l o r =>
    enclose (l.level < o.priority) (l.tokens (!decide (l.level < o.priority) && starred)) ++
      .op o :: enclose (r.level ≤ o.priority) (r.tokens false)
  | e => e.rendered

theorem mem_enclose {b : Bool} {ts : List Token} {t : Token} (h : t ∈ enclose b ts) :
    t = .lparen ∨ t = .rparen ∨ t ∈ ts := by
  rw [enclose] at h
  split at h
  · simp only [List.cons_append, List.mem_cons, List.mem_append, List.not_mem_nil, or_false] at h
    tauto
  · exact .inr (.inr h)

theorem rendered_lexical (e : ExprTree) : ∀ t ∈ e.rendered, t.Lexical := by
  have henclose : ∀ {b : Bool} {ts : List Token}, (∀ t ∈ ts, t.Lexical) →
      ∀ t ∈ enclose b ts, t.Lexical := by
    intro b ts hts t ht
    rcases mem_enclose ht with rfl | rfl | ht
    · trivial
    · trivial
    · exact hts t ht
  have hdec : ∀ d < 10, (Nat.digitChar d).isDigit = true := by decide
  have hhex : ∀ d < 16, isHexDigit (Nat.digitChar d) = true := by decide
  induction e with
  | dec n =>
    intro t ht
    obtain rfl := List.mem_singleton.mp ht
    refine ⟨List.map_eq_nil_iff.not.mpr (numeral_ne_nil (by decide) _), fun c hc => ?_⟩
    obtain ⟨d, hd, rfl⟩ := List.mem_map.mp hc
    exact hdec d (numeral_lt_base (by decide) hd)
  | hex n =>
    intro t ht
    obtain rfl := List.mem_singleton.mp ht
    refine ⟨_, rfl, List.map_eq_nil_iff.not.mpr (numeral_ne_nil (by decide) _), fun c hc => ?_⟩
    obtain ⟨d, hd, rfl⟩ := List.mem_map.mp hc
    exact hhex d (numeral_lt_base (by decide) hd)
  | reg r =>
    intro t ht
    obtain rfl := List.mem_singleton.mp ht
    exact ⟨r.letters, r.digits, rfl, r.letters_ne, r.isAlpha, r.isDigit⟩
  | deref e ih =>
    intro t ht
    rcases List.mem_cons.mp ht with rfl | ht
    · trivial
    · exact henclose ih t ht
  | binary l o r ihl ihr =>
    intro t ht
    rw [rendered, List.mem_append, List.mem_cons] at ht
    rcases ht with ht | rfl | ht
    · exact henclose ihl t ht
    · trivial
    · exact henclose ihr t ht

/-- Two operands do not touch. -/
theorem rendered_isChain (e : ExprTree) :
    e.rendered.IsChain fun a b => a.isOperand = true → b.isOperand = false := by
  -- a token that is not an operand may stand between any two chains
  have hbetween : ∀ {a b : List Token} {t : Token}, t.isOperand = false →
      (a.IsChain fun a b => a.isOperand = true → b.isOperand = false) →
      (b.IsChain fun a b => a.isOperand = true → b.isOperand = false) →
      (a ++ t :: b).IsChain fun a b => a.isOperand = true → b.isOperand = false := by
    intro a b t ht ha hb
    refine List.isChain_append.mpr ⟨ha, List.isChain_cons.mpr ⟨fun u _ h => ?_, hb⟩, ?_⟩
    · rw [ht] at h
      cases h
    · intro u _ w hw _
      obtain rfl := Option.some.inj hw
      exact ht
  have henclose : ∀ {b : Bool} {ts : List Token},
      (ts.IsChain fun a b => a.isOperand = true → b.isOperand = false) →
      (enclose b ts).IsChain fun a b => a.isOperand = true → b.isOperand = false := by
    intro b ts hts
    rw [enclose]
    split
    · exact hbetween (a := .lparen :: ts) rfl (hbetween (a := []) rfl .nil hts) .nil
    · exact hts
  induction e with
  | dec n => exact .singleton _
  | hex n => exact .singleton _
  | reg r => exact .singleton _
  | deref e ih => exact hbetween (a := []) rfl .nil (henclose ih)
  | binary l o r ihl ihr => exact hbetween rfl (henclose ihl) (henclose ihr)

theorem tellStars_congr {p q : Option Token} (h : starToken p = starToken q) (ts : List Token) :
    tellStars p ts = tellStars q ts := by
  cases ts with
  | nil => rfl
  | cons t ts => simp only [tellStars, told, h]

/-- Behind an operand an operator is due, as it is behind a closing parenthesis. -/
theorem tellStars_operand {t : Token} (h : t.isOperand = true) (prev : Option Token)
    (rest : List Token) :
    tellStars prev (t :: rest) = t :: tellStars (some .rparen) rest := by
  have htold : told prev t = t := by cases t <;> first | rfl | cases h
  have hstar : starToken (some t) = starToken (some .rparen) := by
    cases t <;> first | rfl | cases h
  rw [tellStars, htold, tellStars_congr hstar]

theorem tellStars_enclose {e : ExprTree}
    (ih : ∀ prev rest, tellStars prev (e.rendered ++ rest) =
      e.tokens (starToken prev = .op .mul) ++ tellStars (some .rparen) rest)
    (b : Bool) (prev : Option Token) (rest : List Token) :
    tellStars prev (enclose b e.rendered ++ rest) =
      enclose b (e.tokens (!b && decide (starToken prev = .op .mul))) ++
        tellStars (some .rparen) rest := by
  cases b with
  | false => exact ih prev rest
  | true =>
    have hinner := ih (some .lparen) (.rparen :: rest)
    have hstar : starToken (some .lparen) ≠ .op .mul := by decide
    rw [decide_eq_false hstar] at hinner
    simp only [enclose, if_true, List.cons_append, List.append_assoc, List.nil_append, tellStars]
    have hopen : told prev .lparen = .lparen := rfl
    rw [hopen, hinner]
    rfl

theorem tellStars_rendered (e : ExprTree) (prev : Option Token) (rest : List Token) :
    tellStars prev (e.rendered ++ rest) =
      e.tokens (starToken prev = .op .mul) ++ tellStars (some .rparen) rest := by
  induction e generalizing prev rest with
  | dec n => exact tellStars_operand rfl prev rest
  | hex n => exact tellStars_operand rfl prev rest
  | reg r => exact tellStars_operand rfl prev rest
  | deref e ih =>
    have htold : told prev (.op .mul) = starToken prev := rfl
    -- the star behind a dereference is a multiplication, the one behind that is none
    have hturn : decide (starToken (some (starToken prev)) = .op .mul) =
        !decide (starToken prev = .op .mul) := by
      rw [starToken.eq_def prev]
      split <;> rfl
    have hstar : (if decide (starToken prev = .op .mul) = true then Token.op .mul else .deref) =
        starToken prev := by
      rw [starToken.eq_def prev]
      split <;> rfl
    rw [rendered, List.cons_append, tellStars, htold, tellStars_enclose ih, hturn, tokens, hstar]
    rfl
  | binary l o r ihl ihr =>
    have htold : told (some .rparen) (.op o) = .op o := by cases o <;> rfl
    have hstar : decide (starToken (some (.op o)) = .op .mul) = false := by cases o <;> rfl
    rw [rendered, List.append_assoc, tellStars_enclose ihl, List.cons_append, tellStars, htold,
      tellStars_enclose ihr, hstar, Bool.and_false, tokens, List.append_assoc]
    rfl

theorem makeToken_text {blanks : ℕ → List Char} (hblank : ∀ k, ∀ c ∈ blanks k, isBlank c = true)
    {e : ExprTree} (hfits : e.FitsTable) : makeToken (e.text blanks) = .ok (e.tokens false) := by
  have htell := tellStars_rendered e none []
  rw [List.append_nil] at htell
  rw [text, makeToken_spell hblank e.rendered_lexical hfits.2 e.rendered_isChain hfits.1, htell]
  exact congrArg _ (List.append_nil _)

/-! ## Trees without nested dereferences -/

def encloseReading (b : Bool) (e : Reading) : Reading := if b then .parens e else e

/-- How such a tree is read. -/
def reading : ExprTree → Reading
  | dec n => .token (.dec (digitText (numeral 10 n)))
  | hex n => .token (.hex ('0' :: 'x' :: digitText (numeral 16 n)))
  | reg r => .token (.reg ('$' :: r.text))
  | deref e => .deref [] (encloseReading (e.level < 15) e.reading)
  | binary l o r =>
    .binary (encloseReading (l.level < o.priority) l.reading) o
      (encloseReading (r.level ≤ o.priority) r.reading)

theorem tokens_encloseReading (b : Bool) (e : Reading) :
    (encloseReading b e).tokens = enclose b e.tokens := by
  cases b <;> rfl

/-- Only binary trees are below the level of operands. -/
theorem level_lt_iff (e : ExprTree) : e.level < 15 ↔ ∃ l o r, e = binary l o r := by
  cases e with
  | binary l o r => exact ⟨fun _ => ⟨l, o, r, rfl⟩, fun _ => o.priority_le.trans_lt (by decide)⟩
  | _ => exact ⟨fun h => absurd h (Nat.lt_irrefl 15), fun ⟨_, _, _, h⟩ => by cases h⟩

theorem reading_tokens {e : ExprTree} (h : e.nestedDeref = false) :
    e.reading.tokens = e.tokens false := by
  induction e with
  | dec n => rfl
  | hex n => rfl
  | reg r => rfl
  | deref e ih =>
    obtain ⟨hderef, hnested⟩ := Bool.or_eq_false_iff.mp h
    -- a star in front of an operand leaves it as it is
    have hstarred : e.tokens (!decide (e.level < 15) && !false) = e.tokens false := by
      by_cases hlevel : e.level < 15
      · rw [decide_eq_true hlevel]
        rfl
      · cases e with
        | deref e => cases hderef
        | binary l o r => exact absurd ((level_lt_iff _).mpr ⟨l, o, r, rfl⟩) hlevel
        | _ => rfl
    rw [reading, Reading.tokens, tokens_encloseReading, ih hnested, tokens, hstarred]
    rfl
  | binary l o r ihl ihr =>
    obtain ⟨hl, hr⟩ := Bool.or_eq_false_iff.mp h
    rw [reading, Reading.tokens, tokens_encloseReading, tokens_encloseReading, ihl hl, ihr hr,
      tokens, Bool.and_false]

theorem mem_ops_encloseReading {b : Bool} {e : Reading} {o : BinOp}
    (h : o ∈ (encloseReading b e).ops) : b = false ∧ o ∈ e.ops := by
  cases b with
  | false => exact ⟨rfl, h⟩
  | true => cases h

/-- The operators outside parentheses are not below the level of the tree. -/
theorem level_le_of_mem_ops {e : ExprTree} {o : BinOp} (h : o ∈ e.reading.ops) :
    e.level ≤ o.priority := by
  -- an operand that is not enclosed was not below its operator
  induction e with
  | binary l o' r ihl ihr =>
    rw [reading, Reading.ops, List.mem_append, List.mem_cons] at h
    rcases h with h | rfl | h
    · obtain ⟨hb, ho⟩ := mem_ops_encloseReading h
      exact (Nat.not_lt.mp (of_decide_eq_false hb)).trans (ihl ho)
    · exact le_rfl
    · obtain ⟨hb, ho⟩ := mem_ops_encloseReading h
      exact (Nat.not_le.mp (of_decide_eq_false hb)).le.trans (ihr ho)
  | _ => cases h

/-- Parentheses are opened before they are closed, and all are closed. -/
def Balanced (ts : List Token) : Prop :=
  ∀ cnt rest, parenthesesMatch cnt (ts ++ rest) = parenthesesMatch cnt rest

theorem Balanced.enclose {ts : List Token} (h : Balanced ts) (b : Bool) :
    Balanced (enclose b ts) := by
  cases b with
  | false => exact h
  | true =>
    intro cnt rest
    simp only [ExprTree.enclose, if_true, List.cons_append, List.append_assoc, List.nil_append]
    rw [parenthesesMatch, h]
    rfl

theorem Balanced.cons {ts : List Token} (h : Balanced ts) {t : Token} (ht : t.turn = 0) :
    Balanced (t :: ts) := by
  intro cnt rest
  rw [← h cnt rest, List.cons_append]
  cases t <;> first | (cases cnt <;> rfl) | cases ht

theorem Balanced.append {a b : List Token} (ha : Balanced a) (hb : Balanced b) :
    Balanced (a ++ b) := by
  intro cnt rest
  rw [List.append_assoc, ha, hb]

theorem balanced_nil : Balanced [] := fun _ _ => rfl

theorem balanced_tokens (e : ExprTree) (starred : Bool) : Balanced (e.tokens starred) := by
  induction e generalizing starred with
  | dec n => exact balanced_nil.cons rfl
  | hex n => exact balanced_nil.cons rfl
  | reg r => exact balanced_nil.cons rfl
  | deref e ih => exact ((ih _).enclose _).cons (by cases starred <;> rfl)
  | binary l o r ihl ihr => exact ((ihl _).enclose _).append (((ihr _).enclose _).cons rfl)

theorem Balanced.match {ts : List Token} (h : Balanced ts) : parenthesesMatch 0 ts = true := by
  have := h 0 []
  rwa [List.append_nil] at this

theorem reading_valid {e : ExprTree} (h : e.nestedDeref = false) : e.reading.Valid := by
  have henclose : ∀ {t : ExprTree} {b : Bool}, t.nestedDeref = false → t.reading.Valid →
      (encloseReading b t.reading).Valid := by
    intro t b ht hvalid
    cases b with
    | false => exact hvalid
    | true => exact ⟨hvalid, by rw [reading_tokens ht]; exact (balanced_tokens t false).match⟩
  induction e with
  | dec n => rfl
  | hex n => rfl
  | reg r => rfl
  | deref e ih =>
    obtain ⟨hderef, hnested⟩ := Bool.or_eq_false_iff.mp h
    refine ⟨henclose hnested (ih hnested), ?_, rfl, fun o ho => absurd ho List.not_mem_nil⟩
    cases e with
    | deref e => cases hderef
    | binary l o r =>
      rw [decide_eq_true ((level_lt_iff _).mpr ⟨l, o, r, rfl⟩)]
      rfl
    | _ => rfl
  | binary l o r ihl ihr =>
    obtain ⟨hl, hr⟩ := Bool.or_eq_false_iff.mp h
    refine ⟨henclose hl (ihl hl), henclose hr (ihr hr), fun o' ho => ?_, fun o' ho => ?_⟩
    · obtain ⟨hb, ho⟩ := mem_ops_encloseReading ho
      exact (Nat.not_lt.mp (of_decide_eq_false hb)).trans (level_le_of_mem_ops ho)
    · obtain ⟨hb, ho⟩ := mem_ops_encloseReading ho
      exact (Nat.not_le.mp (of_decide_eq_false hb)).trans_le (level_le_of_mem_ops ho)

/-! ## Values -/

theorem digitsValue_numeral {b : ℕ} (hb : 1 < b) {digit : Char → ℕ}
    (hdigit : ∀ d < b, digit (Nat.digitChar d) = d) (n : ℕ) :
    digitsValue b digit (digitText (numeral b n)) = n := by
  rw [digitsValue, digitText, List.foldl_map]
  exact foldl_numeral (f := id) hb (fun q d hd => congrArg (q * b + ·) (hdigit d hd)) n

variable {env : Env}

theorem run_encloseReading (b : Bool) (e : Reading) : (encloseReading b e).run env = e.run env := by
  cases b <;> rfl

/-- The outcome with what is printed. -/
def result (env : Env) (e : ExprTree) : Except Halt Word :=
  if e.zeroDivisor env then .error (.failure (some .divisionByZero)) else .ok (e.value env)

theorem mapError_result (e : ExprTree) : (e.result env).mapError Halt.stop = e.outcome env := by
  rw [result, outcome]
  split <;> rfl

theorem reading_run {e : ExprTree} (h : e.Defined env) : e.reading.run env = e.result env := by
  induction e with
  | dec n =>
    have hvalue : digitsValue 10 decDigit (digitText (numeral 10 n)) = n :=
      digitsValue_numeral (by decide) (by decide) n
    have hmin : min n.val (2 ^ 63 - 1) = n.val := min_eq_left (by omega)
    rw [reading, Reading.run, evalToken, atoi, hvalue, hmin]
    rfl
  | hex n =>
    have hvalue : digitsValue 16 hexDigit (digitText (numeral 16 n)) = n :=
      digitsValue_numeral (by decide) (by decide) n
    have hmin : min n.val (2 ^ 64 - 1) = n.val := min_eq_left (by omega)
    rw [reading, Reading.run, evalToken, sscanfHex, List.drop_succ_cons, List.drop_succ_cons,
      List.drop_zero, hvalue, hmin]
    rfl
  | reg r =>
    obtain ⟨v, hv⟩ := Option.isSome_iff_exists.mp h
    rw [reading, Reading.run, evalToken, List.drop_succ_cons, List.drop_zero, hv]
    simp [result, zeroDivisor, value, hv]
  | deref e ih =>
    rw [reading, Reading.run, run_encloseReading, ih h.1, result, result]
    cases hzero : e.zeroDivisor env with
    | true => simp [zeroDivisor, hzero, Except.bind]
    | false =>
      obtain ⟨v, hv⟩ := Option.isSome_iff_exists.mp (h.2 hzero)
      simp [zeroDivisor, hzero, Except.bind, Env.deref, value, hv]
  | binary l o r ihl ihr =>
    rw [reading, Reading.run, run_encloseReading, run_encloseReading, ihl h.1, ihr h.2,
      result, result, result, zeroDivisor]
    cases l.zeroDivisor env with
    | true => rfl
    | false =>
      cases r.zeroDivisor env with
      | true => rfl
      | false =>
        change (o.guard (r.value env)).bind _ = _
        by_cases hdiv : o = .div ∧ r.value env = 0
        · rw [BinOp.guard, if_pos hdiv]
          exact (if_pos (by simpa using hdiv)).symm
        · rw [BinOp.guard, if_neg hdiv]
          exact (if_neg (by simpa using hdiv)).symm

/-! ## A dereference of a dereference -/

theorem eval_enclose {ts : List Token} (h : Balanced ts) (b : Bool) :
    eval env (enclose b ts) = eval env ts := by
  cases b with
  | false => rfl
  | true => exact eval_parenthesised h.match

/-- The evaluation clears the success flag. -/
def Fails (env : Env) (ts : List Token) : Prop := ∃ printed, eval env ts = .error (.failure printed)

/-- The left side fails, or the right one behind a left one with a value. -/
theorem fails_join {l r : List Token} (hdepth : depth l = 0) (o : BinOp)
    (h : Fails env l ∨ (∃ v, eval env l = .ok v) ∧ Fails env r) :
    Fails env (l ++ .op o :: r) := by
  have hjoin : Chain.check (eval env) BinOp.guard _ = _ :=
    Chain.check_join (pieces 0 l) (pieces 0 r) o
  rw [← pieces_append_op ((zero_add _).trans hdepth)] at hjoin
  rcases h with ⟨printed, hl⟩ | ⟨hl, printed, hr⟩
  · rw [eval_error_iff_check.mp hl] at hjoin
    exact ⟨printed, eval_error_iff_check.mpr hjoin⟩
  · -- a division may find its zero first
    obtain ⟨_, ⟨printed', rfl⟩, hfault⟩ := Chain.checkTail_error (o := o)
      (K := fun f => ∃ printed, f = Halt.failure printed) ⟨printed, rfl⟩
      (eval_error_iff_check.mp hr)
      fun b => (o.guard_cases b).imp_right fun hno => ⟨_, ⟨_, rfl⟩, hno⟩
    rw [eval_ok_iff_check.mp hl] at hjoin
    exact ⟨printed', eval_error_iff_check.mpr (hjoin.trans hfault)⟩

theorem Balanced.depth_eq {ts : List Token} (h : Balanced ts) : depth ts = 0 := by
  simpa using (parenthesesMatch_spec h.match).2

theorem eval_reading {e : ExprTree} (h : e.nestedDeref = false) (hdef : e.Defined env) :
    eval env (e.tokens false) = e.result env := by
  rw [← reading_tokens h, (reading_valid h).eval_eq_run, reading_run hdef]

theorem fails_nestedDeref {e : ExprTree} (h : e.nestedDeref = true) (hdef : e.Defined env) :
    Fails env (e.tokens false) := by
  induction e with
  | dec n => cases h
  | hex n => cases h
  | reg r => cases h
  | deref e ih =>
    cases e with
    | deref e =>
      -- the first star has lost its operand to the multiplication that the second became
      exact fails_join (l := [.deref]) rfl .mul (.inl ⟨none, rfl⟩)
    | binary l o r =>
      have hlevel : (binary l o r).level < 15 := (level_lt_iff _).mpr ⟨l, o, r, rfl⟩
      have hbalanced := balanced_tokens (binary l o r) false
      have hwrap : checkParentheses (.lparen :: (binary l o r).tokens false ++ [.rparen]) = true :=
        checkParentheses_wrap.trans hbalanced.match
      have htokens : (deref (binary l o r)).tokens false =
          [] ++ .deref :: (.lparen :: (binary l o r).tokens false ++ [.rparen]) := by
        rw [tokens, decide_eq_true hlevel]
        rfl
      obtain ⟨printed, hfails⟩ := ih h hdef.1
      rw [Fails, htokens, eval_deref (fun _ => List.not_mem_nil) rfl
        (topOps_of_checkParentheses (by simp) hwrap).1, eval_parenthesised hbalanced.match,
        hfails]
      exact ⟨printed, rfl⟩
    | _ => cases h
  | binary l o r ihl ihr =>
    have hleft := balanced_tokens l false
    rw [tokens, Bool.and_false]
    refine fails_join (hleft.enclose _).depth_eq o ?_
    rw [Fails, Fails, eval_enclose hleft, eval_enclose (balanced_tokens r false)]
    -- if the left side is sound, it has its value or fails on a divisor
    by_cases hl : l.nestedDeref = true
    · exact .inl (ihl hl hdef.1)
    · have hr : r.nestedDeref = true := by simpa [nestedDeref, hl] using h
      rw [eval_reading (by simpa using hl) hdef.1, result]
      cases l.zeroDivisor env with
      | true => exact .inl ⟨_, rfl⟩
      | false => exact .inr ⟨⟨_, rfl⟩, ihr hr hdef.2⟩

end ExprTree

/-! ## The two debuggers -/

theorem rendered_evaluates_iff (d : Debugger) (e : ExprTree) (hdef : e.Defined d.env)
    (hfits : e.FitsTable) (blanks : ℕ → List Char)
    (hblank : ∀ k, ∀ c ∈ blanks k, isBlank c = true) :
    d.flagged (e.text blanks) = e.outcome d.env ↔
      e.nestedDeref = false ∨ e.zeroDivisor d.env = true := by
  rw [Debugger.flagged, evalText_of_makeToken (ExprTree.makeToken_text hblank hfits)]
  cases hnested : e.nestedDeref with
  | false =>
    rw [ExprTree.eval_reading hnested hdef, ExprTree.mapError_result]
    exact ⟨fun _ => .inl rfl, fun _ => rfl⟩
  | true =>
    obtain ⟨printed, hfails⟩ := ExprTree.fails_nestedDeref hnested hdef
    rw [hfails, ExprTree.outcome]
    cases e.zeroDivisor d.env with
    | true => exact ⟨fun _ => .inr rfl, fun _ => rfl⟩
    | false => simp [Except.mapError]

theorem rendered_evaluates_iff_quotient :
    (Debugger.sdb (fun _ => none) some).flagged
      ((ExprTree.binary (.dec 7) .div (.deref (.hex 4))).text fun _ => [' ']) = .ok 1 := by
  refine (rendered_evaluates_iff (Debugger.sdb (fun _ => none) some) _ ?_ (by decide) _ ?_).mpr
    (.inl rfl)
  · exact ⟨trivial, trivial, fun _ => rfl⟩
  · exact fun _ c hc => (List.mem_singleton.mp hc) ▸ rfl

/-- `**4` fails, with a memory that holds every address at itself. -/
theorem double_deref_fails :
    let d := Debugger.sdb (fun _ => none) some
    let e := ExprTree.deref (.deref (.dec 4))
    e.Defined d.env ∧ e.FitsTable ∧ e.outcome d.env = .ok 4 ∧
      e.text (fun _ => []) = ['*', '*', '4'] ∧ d.flagged ['*', '*', '4'] = .error .failure := by
  refine ⟨?_, by decide, rfl, rfl, rfl⟩
  exact ⟨⟨trivial, fun _ => rfl⟩, fun _ => rfl⟩

end Sdb
end Jyd
