import Jyd.Sdb.Expr
import Mathlib.Data.List.Chain

/-!
# ExprTokens — the tokenizer on spelled tokens, and within its limits

Tokens that are spelled out, with blanks in front of them at will, come back from
`make_token`; only the stars are told apart on the way.  Within the limits of the token
table the tokenizer does not assert, whatever the text.
-/

namespace Jyd
namespace Sdb

open Hdl

/-! ## Spelling -/

def Token.text : Token → List Char
  | .op .add => ['+']
  | .op .sub => ['-']
  | .op .mul => ['*']
  | .op .div => ['/']
  | .op .eq => ['=', '=']
  | .op .neq => ['!', '=']
  | .op .and => ['&', '&']
  | .deref => ['*']
  | .lparen => ['(']
  | .rparen => [')']
  | .reg str => str
  | .hex str => str
  | .dec str => str

def Token.ruleType : Token → RuleType
  | .op o => .op o
  | .deref => .op .mul
  | .lparen => .lparen
  | .rparen => .rparen
  | .reg _ => .reg
  | .hex _ => .hex
  | .dec _ => .dec

/-- Registers and numbers. -/
def Token.isOperand : Token → Bool
  | .reg _ | .hex _ | .dec _ => true
  | _ => false

/-- Tokens as they come before stars are told apart. -/
def Token.Lexical : Token → Prop
  | .deref => False
  | .reg str => ∃ letters digits : List Char, str = '$' :: (letters ++ digits) ∧ letters ≠ [] ∧
      (∀ c ∈ letters, c.isAlpha = true) ∧ ∀ c ∈ digits, c.isDigit = true
  | .hex str => ∃ digits : List Char, str = '0' :: 'x' :: digits ∧ digits ≠ [] ∧
      ∀ c ∈ digits, isHexDigit c = true
  | .dec str => str ≠ [] ∧ ∀ c ∈ str, c.isDigit = true
  | _ => True

/-! ## One match -/

theorem runLength_append {p : Char → Bool} {a b : List Char} (ha : ∀ c ∈ a, p c = true)
    (hb : ∀ c ∈ b.head?, p c = false) : runLength p (a ++ b) = a.length := by
  rw [runLength, List.takeWhile_append_of_pos ha]
  cases b with
  | nil => simp
  | cons c b => rw [List.takeWhile_cons, hb c rfl]; simp

theorem literalLength_ne {c d : Char} (h : c ≠ d) (s e : List Char) :
    literalLength (d :: s) (c :: e) = 0 := by
  simp [literalLength, List.isPrefixOf, h.symm]

/-- A match takes something. -/
theorem matchRule_pos {e : List Char} {type : RuleType} {len : ℕ}
    (h : matchRule e = some (type, len)) : 0 < len := by
  obtain ⟨r, -, hr⟩ := List.exists_of_findSome?_eq_some h
  split at hr
  · cases hr
  · next hne =>
      obtain ⟨-, rfl⟩ := Prod.mk.inj (Option.some.inj hr)
      exact Nat.pos_of_ne_zero hne

theorem findSome?_rule (r : RuleType × (List Char → ℕ)) (rs : List (RuleType × (List Char → ℕ)))
    (e : List Char) :
    ((r :: rs).findSome? fun r => if r.2 e = 0 then none else some (r.1, r.2 e)) =
      if r.2 e ≠ 0 then some (r.1, r.2 e)
      else rs.findSome? fun r => if r.2 e = 0 then none else some (r.1, r.2 e) := by
  rw [List.findSome?_cons]
  by_cases h : r.2 e = 0
  · rw [if_pos h, if_neg (not_not.mpr h)]
  · rw [if_neg h, if_pos h]

/-- Only the last three rules are for text that begins like a word. -/
theorem matchRule_word {c : Char} (h : c.isDigit = true ∨ c = '$') (e : List Char) :
    matchRule (c :: e) =
      if regLength (c :: e) ≠ 0 then some (.reg, regLength (c :: e))
      else if hexLength (c :: e) ≠ 0 then some (.hex, hexLength (c :: e))
      else if runLength Char.isDigit (c :: e) ≠ 0 then some (.dec, runLength Char.isDigit (c :: e))
      else none := by
  have hout : ∀ d ∈ [' ', '\r', '\n', '+', '-', '*', '/', '(', ')', '=', '!', '&'],
      ¬ (d.isDigit = true ∨ d = '$') := by
    simp only [List.forall_mem_cons, List.not_mem_nil, false_imp_iff, implies_true]
    decide
  have hne : ∀ d ∈ [' ', '\r', '\n', '+', '-', '*', '/', '(', ')', '=', '!', '&'], c ≠ d := by
    rintro d hd rfl
    exact hout c hd h
  have hblank : runLength isBlank (c :: e) = 0 := by
    rw [runLength, List.takeWhile_cons_of_neg]
    · rfl
    · simp [isBlank, hne ' ', hne '\r', hne '\n']
  have hliteral : ∀ d ∈ ['+', '-', '*', '/', '(', ')', '=', '!', '&'], ∀ s : List Char,
      literalLength (d :: s) (c :: e) = 0 := fun d hd s =>
    literalLength_ne (hne d (List.mem_of_mem_drop (i := 3) hd)) s e
  have hskip : ∀ r ∈ rules.take 10, r.2 (c :: e) = 0 := by
    simp [rules, hblank, hliteral]
  have hnone : ((rules.take 10).findSome? fun r =>
      if r.2 (c :: e) = 0 then none else some (r.1, r.2 (c :: e))) = none :=
    List.findSome?_eq_none_iff.mpr fun r hr => if_pos (hskip r hr)
  have hrest : rules.drop 10 =
      [(.reg, regLength), (.hex, hexLength), (.dec, runLength Char.isDigit)] := rfl
  rw [matchRule, ← List.take_append_drop 10 rules, List.findSome?_append, hnone, Option.none_or,
    hrest, findSome?_rule, findSome?_rule, findSome?_rule, List.findSome?_nil]

/-- What follows a word is not part of it. -/
def NoWordHead (rest : List Char) : Prop := ∀ c ∈ rest.head?, c.isAlphanum = false

theorem isAlphanum_of_isHexDigit {c : Char} (h : isHexDigit c = true) : c.isAlphanum = true := by
  simp only [isHexDigit, Bool.or_eq_true, Bool.and_eq_true, decide_eq_true_eq, Char.le_def] at h
  change ((decide ('A'.val ≤ c.val ∧ c.val ≤ 'Z'.val) ||
    (decide ('a'.val ≤ c.val) && decide (c.val ≤ 'z'.val))) || c.isDigit) = true
  simp only [Bool.or_eq_true, Bool.and_eq_true, decide_eq_true_eq]
  rcases h with (h | ⟨hlo, hhi⟩) | ⟨hlo, hhi⟩
  · exact .inr h
  · exact .inl (.inr ⟨hlo, UInt32.le_trans hhi (by decide)⟩)
  · exact .inl (.inl ⟨hlo, UInt32.le_trans hhi (by decide)⟩)

theorem isAlpha_of_isDigit {c : Char} (h : c.isDigit = true) : c.isAlpha = false := by
  change (decide ('0'.val ≤ c.val) && decide (c.val ≤ '9'.val)) = true at h
  change (decide ('A'.val ≤ c.val ∧ c.val ≤ 'Z'.val) ||
    (decide ('a'.val ≤ c.val) && decide (c.val ≤ 'z'.val))) = false
  simp only [Bool.and_eq_true, decide_eq_true_eq, UInt32.le_iff_toNat_le] at h
  simp only [Bool.or_eq_false_iff, Bool.and_eq_false_iff, decide_eq_false_iff_not,
    UInt32.le_iff_toNat_le]
  have hlo : '0'.val.toNat = 48 := rfl
  have hhi : '9'.val.toNat = 57 := rfl
  have hA : 'A'.val.toNat = 65 := rfl
  have ha : 'a'.val.toNat = 97 := rfl
  omega

theorem noWordHead_spec {rest : List Char} (h : NoWordHead rest) {c : Char} (hc : c ∈ rest.head?) :
    c.isAlpha = false ∧ c.isDigit = false := by
  exact Bool.or_eq_false_iff.mp (h c hc)

theorem regLength_eq {letters digits rest : List Char} (hne : letters ≠ [])
    (hletters : ∀ c ∈ letters, c.isAlpha = true) (hdigits : ∀ c ∈ digits, c.isDigit = true)
    (hrest : NoWordHead rest) :
    regLength ('$' :: (letters ++ digits ++ rest)) = ('$' :: (letters ++ digits)).length := by
  have hafter : ∀ c ∈ (digits ++ rest).head?, c.isAlpha = false := by
    cases digits with
    | nil => exact fun c hc => (noWordHead_spec hrest hc).1
    | cons d digits =>
      intro c hc
      obtain rfl := Option.some.inj hc
      exact isAlpha_of_isDigit (hdigits _ List.mem_cons_self)
  have hend : ∀ c ∈ rest.head?, c.isDigit = false := fun c hc => (noWordHead_spec hrest hc).2
  have hrun : runLength Char.isAlpha (letters ++ digits ++ rest) = letters.length := by
    rw [List.append_assoc, runLength_append hletters hafter]
  have hpos : letters.length ≠ 0 := fun h => hne (List.eq_nil_of_length_eq_zero h)
  rw [regLength, hrun, if_neg hpos, List.append_assoc, List.drop_left, runLength_append hdigits hend]
  simp
  omega

theorem hexLength_eq {digits rest : List Char} (hne : digits ≠ [])
    (hdigits : ∀ c ∈ digits, isHexDigit c = true) (hrest : NoWordHead rest) :
    hexLength ('0' :: 'x' :: (digits ++ rest)) = ('0' :: 'x' :: digits).length := by
  have hend : ∀ c ∈ rest.head?, isHexDigit c = false := by
    intro c hc
    by_contra hhex
    have := isAlphanum_of_isHexDigit (Bool.not_eq_false _ ▸ hhex)
    rw [hrest c hc] at this
    cases this
  have hpos : digits.length ≠ 0 := fun h => hne (List.eq_nil_of_length_eq_zero h)
  rw [hexLength, runLength_append hdigits hend, if_pos ⟨.inl rfl, hpos⟩]
  simp
  omega

/-- Decimal digits are not the beginning of a hexadecimal number. -/
theorem hexLength_decimal {str rest : List Char} (hne : str ≠ [])
    (hstr : ∀ c ∈ str, c.isDigit = true) (hrest : NoWordHead rest) :
    hexLength (str ++ rest) = 0 := by
  have hsecond : ∀ (c x : Char) (e : List Char), x ≠ 'x' → x ≠ 'X' →
      hexLength (c :: x :: e) = 0 := by
    intro c x e hx hX
    rw [hexLength.eq_def]
    split
    · next heq =>
        obtain ⟨-, rfl, rfl⟩ := List.cons.inj heq |>.imp_right List.cons.inj
        rw [if_neg (by simp [hx, hX])]
    · rfl
  have hword : ∀ x : Char, x.isAlphanum = false ∨ x.isDigit = true → x ≠ 'x' ∧ x ≠ 'X' := by
    intro x hx
    constructor <;> rintro rfl <;> revert hx <;> decide
  match str, rest with
  | [], _ => exact absurd rfl hne
  | [c], [] => simp [hexLength]
  | [c], x :: rest =>
    obtain ⟨hx, hX⟩ := hword x (.inl (hrest x rfl))
    exact hsecond c x rest hx hX
  | c :: d :: str, rest =>
    obtain ⟨hx, hX⟩ := hword d (.inr (hstr d (by simp)))
    exact hsecond c d _ hx hX

theorem matchRule_token {t : Token} (h : t.Lexical) {rest : List Char}
    (hrest : t.isOperand = true → NoWordHead rest) :
    matchRule (t.text ++ rest) = some (t.ruleType, t.text.length) := by
  cases t with
  | op o => cases o <;> rfl
  | deref => cases h
  | lparen => rfl
  | rparen => rfl
  | reg str =>
    obtain ⟨letters, digits, rfl, hne, hletters, hdigits⟩ := h
    rw [Token.text, List.cons_append, matchRule_word (.inr rfl)]
    have hlen := regLength_eq hne hletters hdigits (hrest rfl)
    rw [hlen, if_pos (by simp)]
    rfl
  | hex str =>
    obtain ⟨digits, rfl, hne, hdigits⟩ := h
    rw [Token.text, List.cons_append, List.cons_append, matchRule_word (.inl rfl)]
    have hlen := hexLength_eq hne hdigits (hrest rfl)
    rw [hlen, if_neg (by simp [regLength]), if_pos (by simp)]
    rfl
  | dec str =>
    obtain ⟨hne, hdigits⟩ := h
    have hhex := hexLength_decimal hne hdigits (hrest rfl)
    have hrun : runLength Char.isDigit (str ++ rest) = str.length :=
      runLength_append hdigits fun c hc => (noWordHead_spec (hrest rfl) hc).2
    cases str with
    | nil => exact absurd rfl hne
    | cons c str =>
      have hdigit := hdigits c List.mem_cons_self
      have hreg : regLength (c :: (str ++ rest)) = 0 := by
        rw [regLength.eq_def]
        split
        · next heq =>
            rw [(List.cons.inj heq).1] at hdigit
            exact absurd hdigit (by decide)
        · rfl
      rw [Token.text, List.cons_append] at *
      rw [matchRule_word (.inl hdigit), hreg, hhex, hrun, if_neg (by simp), if_neg (by simp),
        if_pos (by simp)]
      rfl

/-! ## Telling stars apart -/

def told (prev : Option Token) (t : Token) : Token := if t = .op .mul then starToken prev else t

def tellStars : Option Token → List Token → List Token
  | _, [] => []
  | prev, t :: ts => told prev t :: tellStars (some (told prev t)) ts

theorem recordToken_token {t : Token} (h : t.Lexical) (hlen : t.text.length < STR_SIZE)
    {tokens : List Token} (hroom : tokens.length < MAX_TOKEN_NUM) :
    recordToken t.ruleType t.text tokens = .ok (tokens ++ [told tokens.getLast? t]) := by
  rw [recordToken.eq_def, if_pos hroom]
  cases t with
  | op o => cases o <;> rfl
  | deref => cases h
  | lparen => rfl
  | rparen => rfl
  | reg str => exact if_pos hlen
  | hex str => exact if_pos hlen
  | dec str => exact if_pos hlen

/-! ## Spelled tokens -/

/-- The text of tokens, with blanks in front of each. -/
def spell (blanks : ℕ → List Char) : ℕ → List Token → List Char
  | _, [] => []
  | k, t :: ts => blanks k ++ (t.text ++ spell blanks (k + 1) ts)

theorem Token.text_head {t : Token} (h : t.Lexical) :
    ∃ c e, t.text = c :: e ∧ isBlank c = false ∧ (t.isOperand = false → c.isAlphanum = false) := by
  have hdigit : ∀ c : Char, c.isDigit = true → isBlank c = false := by
    intro c hc
    by_contra hblank
    simp only [isBlank, Bool.not_eq_false, Bool.or_eq_true, decide_eq_true_eq] at hblank
    rcases hblank with (rfl | rfl) | rfl <;> revert hc <;> decide
  cases t with
  | op o => cases o <;> exact ⟨_, _, rfl, rfl, fun _ => rfl⟩
  | deref => cases h
  | lparen => exact ⟨_, _, rfl, rfl, fun _ => rfl⟩
  | rparen => exact ⟨_, _, rfl, rfl, fun _ => rfl⟩
  | reg str =>
    obtain ⟨letters, digits, rfl, -⟩ := h
    exact ⟨_, _, rfl, rfl, fun hop => by cases hop⟩
  | hex str =>
    obtain ⟨digits, rfl, -⟩ := h
    exact ⟨_, _, rfl, rfl, fun hop => by cases hop⟩
  | dec str =>
    obtain ⟨hne, hdigits⟩ := h
    cases str with
    | nil => exact absurd rfl hne
    | cons c str =>
      exact ⟨_, _, rfl, hdigit c (hdigits c List.mem_cons_self),
        fun hop => by cases hop⟩

section Spell

variable {blanks : ℕ → List Char} (hblank : ∀ k, ∀ c ∈ blanks k, isBlank c = true)
include hblank

/-- Behind an operand comes a blank, an operator or a parenthesis. -/
theorem noWordHead_spell {k : ℕ} {ts : List Token} (hlex : ∀ t ∈ ts, t.Lexical)
    (hnext : ∀ t ∈ ts.head?, t.isOperand = false) : NoWordHead (spell blanks k ts) := by
  cases ts with
  | nil => exact fun c hc => absurd hc (by simp [spell])
  | cons t ts =>
    intro c hc
    rw [spell] at hc
    cases hb : blanks k with
    | nil =>
      obtain ⟨d, e, htext, -, hword⟩ := Token.text_head (hlex t List.mem_cons_self)
      rw [hb, htext] at hc
      obtain rfl := Option.some.inj hc
      exact hword (hnext t rfl)
    | cons b bs =>
      have hbl := hblank k b (by simp [hb])
      rw [hb] at hc
      obtain rfl := Option.some.inj hc
      simp only [isBlank, Bool.or_eq_true, decide_eq_true_eq] at hbl
      rcases hbl with (rfl | rfl) | rfl <;> decide

omit hblank in
theorem matchRule_blanks {b e : List Char} (hne : b ≠ []) (hb : ∀ c ∈ b, isBlank c = true)
    (he : ∀ c ∈ e.head?, isBlank c = false) : matchRule (b ++ e) = some (.notype, b.length) := by
  have hrun := runLength_append hb he
  have hpos : b.length ≠ 0 := fun h => hne (List.eq_nil_of_length_eq_zero h)
  simp [matchRule, rules, hrun, hpos]

omit hblank in
/-- One turn of the loop. -/
theorem makeTokenLoop_match {fuel : ℕ} {a e : List Char} {type : RuleType} {tokens : List Token}
    (hne : a ≠ []) (hmatch : matchRule (a ++ e) = some (type, a.length)) :
    makeTokenLoop (fuel + 1) (a ++ e) tokens =
      (recordToken type a tokens).bind fun tokens => makeTokenLoop fuel e tokens := by
  cases a with
  | nil => exact absurd rfl hne
  | cons c a =>
    have htake : (c :: (a ++ e)).take (c :: a).length = c :: a := by simp
    have hdrop : (c :: (a ++ e)).drop (c :: a).length = e := by simp
    rw [List.cons_append] at hmatch ⊢
    rw [makeTokenLoop, hmatch]
    simp only [htake, hdrop]
    rfl

theorem makeTokenLoop_spell {ts : List Token} (hlex : ∀ t ∈ ts, t.Lexical)
    (hlen : ∀ t ∈ ts, t.text.length < STR_SIZE)
    (hloose : ts.IsChain fun a b => a.isOperand = true → b.isOperand = false)
    {fuel k : ℕ} {tokens : List Token} (hfuel : (spell blanks k ts).length ≤ fuel)
    (hroom : tokens.length + ts.length ≤ MAX_TOKEN_NUM) :
    makeTokenLoop fuel (spell blanks k ts) tokens = .ok (tokens ++ tellStars tokens.getLast? ts) := by
  induction ts generalizing fuel k tokens with
  | nil => simp [spell, makeTokenLoop, tellStars]
  | cons t ts ih =>
    have ht := hlex t List.mem_cons_self
    obtain ⟨c, e, htext, hc, -⟩ := Token.text_head ht
    have hroom' : tokens.length < MAX_TOKEN_NUM := by
      rw [List.length_cons] at hroom
      omega
    have hrest : t.isOperand = true → NoWordHead (spell blanks (k + 1) ts) := fun hop =>
      noWordHead_spell hblank (fun u hu => hlex u (List.mem_cons_of_mem _ hu)) fun u hu => by
        cases ts with
        | nil => cases hu
        | cons u' ts =>
          obtain rfl := Option.some.inj hu
          exact (List.isChain_cons_cons.mp hloose).1 hop
    -- the token itself, once the blanks are gone
    have htoken : ∀ {fuel : ℕ}, (t.text ++ spell blanks (k + 1) ts).length ≤ fuel →
        makeTokenLoop fuel (t.text ++ spell blanks (k + 1) ts) tokens =
          .ok (tokens ++ tellStars tokens.getLast? (t :: ts)) := by
      intro fuel hfuel
      have hpos : 0 < fuel := by
        rw [htext, List.cons_append, List.length_cons] at hfuel
        omega
      obtain ⟨fuel, rfl⟩ := Nat.exists_eq_succ_of_ne_zero hpos.ne'
      rw [makeTokenLoop_match (by simp [htext]) (matchRule_token ht hrest),
        recordToken_token ht (hlen t List.mem_cons_self) hroom']
      refine (ih (fun u hu => hlex u (List.mem_cons_of_mem _ hu))
        (fun u hu => hlen u (List.mem_cons_of_mem _ hu)) hloose.tail ?_ ?_).trans ?_
      · rw [htext, List.cons_append, List.length_cons, List.length_append] at hfuel
        omega
      · rw [List.length_append, List.length_singleton]
        rw [List.length_cons] at hroom
        omega
      · simp [tellStars]
    rw [spell] at hfuel ⊢
    by_cases hb : blanks k = []
    · rw [hb, List.nil_append] at hfuel ⊢
      exact htoken hfuel
    · obtain ⟨fuel, rfl⟩ : ∃ n, fuel = n + 1 := ⟨fuel - 1, by
        have := List.length_pos_iff.mpr hb
        rw [List.length_append] at hfuel
        omega⟩
      rw [makeTokenLoop_match hb (matchRule_blanks hb (hblank k) fun d hd => ?_), recordToken.eq_def,
        if_pos hroom']
      · refine htoken ?_
        have := List.length_pos_iff.mpr hb
        rw [List.length_append] at hfuel
        omega
      · rw [htext] at hd
        obtain rfl := Option.some.inj hd
        exact hc

theorem makeToken_spell {ts : List Token} (hlex : ∀ t ∈ ts, t.Lexical)
    (hlen : ∀ t ∈ ts, t.text.length < STR_SIZE)
    (hloose : ts.IsChain fun a b => a.isOperand = true → b.isOperand = false)
    (hroom : ts.length ≤ MAX_TOKEN_NUM) :
    makeToken (spell blanks 0 ts) = .ok (tellStars none ts) :=
  makeTokenLoop_spell hblank hlex hlen hloose le_rfl (by simpa using hroom)

end Spell

/-! ## Within the limits -/

/-- What the rules match, one after the other; blanks included. -/
def lexemes : ℕ → List Char → List (RuleType × List Char)
  | _, [] => []
  | 0, _ :: _ => []
  | fuel + 1, c :: e =>
    match matchRule (c :: e) with
    | none => []
    | some (type, len) => (type, (c :: e).take len) :: lexemes fuel ((c :: e).drop len)

/-- The texts of the tokens of a text. -/
def tokenTexts (e : List Char) : List (List Char) :=
  ((lexemes e.length e).filter fun l => l.1 ≠ .notype).map Prod.snd

def WithinLimits (e : List Char) : Prop :=
  (tokenTexts e).length < MAX_TOKEN_NUM ∧ ∀ str ∈ tokenTexts e, str.length < STR_SIZE

instance : DecidablePred WithinLimits := fun _ => inferInstanceAs (Decidable (_ ∧ _))

theorem recordToken_ok {type : RuleType} {str : List Char} {tokens : List Token}
    (hroom : tokens.length < MAX_TOKEN_NUM) (hlen : type ≠ .notype → str.length < STR_SIZE) :
    ∃ tokens', recordToken type str tokens = .ok tokens' ∧
      tokens'.length = tokens.length + if type ≠ .notype then 1 else 0 := by
  rw [recordToken.eq_def, if_pos hroom]
  cases type with
  | notype => exact ⟨_, rfl, rfl⟩
  | op o => cases o <;> exact ⟨_, rfl, by simp⟩
  | lparen => exact ⟨_, rfl, by simp⟩
  | rparen => exact ⟨_, rfl, by simp⟩
  | reg => exact ⟨_, if_pos (hlen (by decide)), by simp⟩
  | hex => exact ⟨_, if_pos (hlen (by decide)), by simp⟩
  | dec => exact ⟨_, if_pos (hlen (by decide)), by simp⟩

/-- Within the limits, the tokenizer fails on a character that no rule matches only. -/
theorem makeToken_error {e : List Char} (h : WithinLimits e) :
    ∀ f, makeToken e = .error f → ∃ rest, f = .failure (some (.noMatch rest)) := by
  have hloop : ∀ (fuel : ℕ) (e : List Char) (tokens : List Token), e.length ≤ fuel →
      tokens.length + ((lexemes fuel e).filter fun l => l.1 ≠ .notype).length < MAX_TOKEN_NUM →
      (∀ l ∈ (lexemes fuel e).filter fun l => l.1 ≠ .notype, l.2.length < STR_SIZE) →
      ∀ f, makeTokenLoop fuel e tokens = .error f →
        ∃ rest, f = .failure (some (.noMatch rest)) := by
    -- one match a turn: a blank costs no room, any other match costs one entry
    intro fuel
    induction fuel with
    | zero =>
      intro e tokens hfuel _ _
      obtain rfl := List.eq_nil_of_length_eq_zero (Nat.le_zero.mp hfuel)
      exact fun f h => by cases h
    | succ fuel ih =>
      intro e tokens hfuel hroom hlen
      cases e with
      | nil => exact fun f h => by cases h
      | cons c e =>
        rw [lexemes] at hroom hlen
        rw [makeTokenLoop]
        cases hmatch : matchRule (c :: e) with
        | none => exact fun f h => ⟨_, (Except.error.inj h).symm⟩
        | some m =>
          obtain ⟨type, len⟩ := m
          rw [hmatch] at hroom hlen
          have hpos := matchRule_pos hmatch
          simp only [List.filter_cons, decide_eq_true_eq] at hroom hlen
          have hstr : type ≠ .notype → ((c :: e).take len).length < STR_SIZE := by
            intro htype
            rw [if_pos htype] at hlen
            exact hlen _ List.mem_cons_self
          have hspace : tokens.length < MAX_TOKEN_NUM := by omega
          obtain ⟨tokens', hrec, hcount⟩ := recordToken_ok hspace hstr
          simp only [hrec]
          refine ih _ tokens' ?_ ?_ ?_
          · rw [List.length_drop]
            omega
          · rw [hcount]
            split_ifs at hroom ⊢ with htype
            · rw [List.length_cons] at hroom
              omega
            · omega
          · intro l hl
            refine hlen l ?_
            split_ifs
            · exact List.mem_cons_of_mem _ hl
            · exact hl
  refine hloop _ e [] le_rfl ?_ fun l hl => h.2 _ (List.mem_map_of_mem hl)
  simpa [tokenTexts] using h.1

end Sdb
end Jyd
