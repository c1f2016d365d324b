import Jyd.Hdl.Signal

/-!
# Expr — the expressions of the two debuggers

`make_token`, `check_parentheses`, `find_main_op` and the recursive evaluator, which NEMU's
monitor (`expr`) and the simulator's debugger (`expr_t::eval`) share line by line.  They
differ in the registers they know and in how they load a word.

The tokens `p..q` of the table are a list.  An evaluation ends with a value, with the success
flag cleared, or in an assertion.  The callers in NEMU get the flag, those in the simulator get
0 and what has been printed.
-/

namespace Jyd
namespace Sdb

open Hdl

/-! ## Tokens -/

inductive BinOp
  | add
  | sub
  | mul
  | div
  | eq
  | neq
  | and
  deriving DecidableEq, Repr

/-- An entry of the token table; registers and numbers carry their text. -/
inductive Token
  | op (o : BinOp)
  | deref
  | lparen
  | rparen
  | reg (str : List Char)
  | hex (str : List Char)
  | dec (str : List Char)
  deriving DecidableEq, Repr

/-- What the two evaluators print. -/
inductive Message
  /-- Of the text from the first character that no rule matches. -/
  | noMatch (rest : List Char)
  | unknownRegister (str : List Char)
  | divisionByZero
  deriving DecidableEq, Repr

/-- The end of an evaluation without a value.  A failure is printed at most once, where it
occurs: every caller returns at once. -/
inductive Halt
  | failure (printed : Option Message)
  | assertion
  deriving DecidableEq, Repr

/-- What the success flag tells of it. -/
inductive Stop
  | failure
  | assertion
  deriving DecidableEq, Repr

def Halt.stop : Halt → Stop
  | failure _ => .failure
  | assertion => .assertion

/-! ## The rules of the tokenizer

Each rule is an anchored regular expression; the length of its match, 0 if there is none. -/

def isBlank (c : Char) : Bool := c = ' ' || c = '\r' || c = '\n'

def isHexDigit (c : Char) : Bool :=
  c.isDigit || ('a' ≤ c && c ≤ 'f') || ('A' ≤ c && c ≤ 'F')

def runLength (p : Char → Bool) (e : List Char) : ℕ := (e.takeWhile p).length

def literalLength (s e : List Char) : ℕ := if s.isPrefixOf e then s.length else 0

def regLength : List Char → ℕ
  | '$' :: e =>
    let letters := runLength Char.isAlpha e
    if letters = 0 then 0 else 1 + letters + runLength Char.isDigit (e.drop letters)
  | _ => 0

def hexLength : List Char → ℕ
  | '0' :: x :: e =>
    if (x = 'x' ∨ x = 'X') ∧ runLength isHexDigit e ≠ 0 then 2 + runLength isHexDigit e else 0
  | _ => 0

inductive RuleType
  | notype
  | op (o : BinOp)
  | lparen
  | rparen
  | reg
  | hex
  | dec
  deriving DecidableEq, Repr

def rules : List (RuleType × (List Char → ℕ)) :=
  [(.notype, runLength isBlank),
   (.op .add, literalLength ['+']),
   (.op .sub, literalLength ['-']),
   (.op .mul, literalLength ['*']),
   (.op .div, literalLength ['/']),
   (.lparen, literalLength ['(']),
   (.rparen, literalLength [')']),
   (.op .eq, literalLength ['=', '=']),
   (.op .neq, literalLength ['!', '=']),
   (.op .and, literalLength ['&', '&']),
   (.reg, regLength),
   (.hex, hexLength),
   (.dec, runLength Char.isDigit)]

/-- The first rule that matches, and how much it takes. -/
def matchRule (e : List Char) : Option (RuleType × ℕ) :=
  rules.findSome? fun r => if r.2 e = 0 then none else some (r.1, r.2 e)

/-! ## `make_token` -/

def MAX_TOKEN_NUM : ℕ := 3000

/-- The capacity of the text of a token, its terminator included. -/
def STR_SIZE : ℕ := 32

def typeExpectNxtIsExpr : Token → Bool
  | .op _ => true
  | .lparen => true
  | _ => false

/-- A star is a dereference at the beginning and where an operand is due. -/
def starToken (prev : Option Token) : Token :=
  if prev.all typeExpectNxtIsExpr then .deref else .op .mul

def recordToken (type : RuleType) (str : List Char) (tokens : List Token) :
    Except Halt (List Token) :=
  if tokens.length < MAX_TOKEN_NUM then
    match type with
    | .notype => .ok tokens
    | .op .mul => .ok (tokens ++ [starToken tokens.getLast?])
    | .op o => .ok (tokens ++ [.op o])
    | .lparen => .ok (tokens ++ [.lparen])
    | .rparen => .ok (tokens ++ [.rparen])
    | .reg => if str.length < STR_SIZE then .ok (tokens ++ [.reg str]) else .error .assertion
    | .hex => if str.length < STR_SIZE then .ok (tokens ++ [.hex str]) else .error .assertion
    | .dec => if str.length < STR_SIZE then .ok (tokens ++ [.dec str]) else .error .assertion
  else .error .assertion

def makeTokenLoop : ℕ → List Char → List Token → Except Halt (List Token)
  | _, [], tokens => .ok tokens
  -- every match takes a character, so the text is its own bound
  | 0, _ :: _, _ => .error .assertion
  | fuel + 1, c :: e, tokens =>
    match matchRule (c :: e) with
    | none => .error (.failure (some (.noMatch (c :: e))))
    | some (type, len) => do
        let tokens ← recordToken type ((c :: e).take len) tokens
        makeTokenLoop fuel ((c :: e).drop len) tokens

def makeToken (e : List Char) : Except Halt (List Token) := makeTokenLoop e.length e []

/-! ## `check_parentheses` and `find_main_op` -/

def inner (tokens : List Token) : List Token := tokens.tail.dropLast

/-- The loop of `check_parentheses`. -/
def parenthesesMatch : ℕ → List Token → Bool
  | cnt, [] => cnt = 0
  | cnt, .lparen :: ts => parenthesesMatch (cnt + 1) ts
  | 0, .rparen :: _ => false
  | cnt + 1, .rparen :: ts => parenthesesMatch cnt ts
  | cnt, _ :: ts => parenthesesMatch cnt ts

def checkParentheses (tokens : List Token) : Bool :=
  tokens.head? = some .lparen && tokens.getLast? = some .rparen &&
    parenthesesMatch 0 (inner tokens)

def BinOp.priority : BinOp → ℕ
  | .add | .sub => 12
  | .mul | .div => 13
  | .and => 5
  | .neq | .eq => 9

/-- `op_priority`, for the tokens that `is_operator` accepts. -/
def opPriority : Token → Option ℕ
  | .deref => some 15
  | .op o => some o.priority
  | _ => none

/-- The loop of `find_main_op`; the counter may fall below zero. -/
def findMainOpLoop : List Token → ℕ → ℤ → ℕ → Option ℕ → Option ℕ
  | [], _, _, _, mainOp => mainOp
  | .lparen :: ts, i, cnt, minPriority, mainOp =>
    findMainOpLoop ts (i + 1) (cnt + 1) minPriority mainOp
  | .rparen :: ts, i, cnt, minPriority, mainOp =>
    findMainOpLoop ts (i + 1) (cnt - 1) minPriority mainOp
  | t :: ts, i, cnt, minPriority, mainOp =>
    match opPriority t with
    | some priority =>
      if cnt = 0 ∧ priority ≤ minPriority then findMainOpLoop ts (i + 1) cnt priority (some i)
      else findMainOpLoop ts (i + 1) cnt minPriority mainOp
    | none => findMainOpLoop ts (i + 1) cnt minPriority mainOp

def findMainOp (tokens : List Token) : Option ℕ := findMainOpLoop tokens 0 0 0x114514 none

/-! ## The evaluator -/

/-- What an evaluation asks of its debugger.  A load from an address that is not mapped does
not come back. -/
structure Env where
  reg : List Char → Option Word
  load : Word → Option Word

/-- The number that digits of base `b` spell. -/
def digitsValue (b : ℕ) (digit : Char → ℕ) (str : List Char) : ℕ :=
  str.foldl (fun n c => n * b + digit c) 0

def decDigit (c : Char) : ℕ := c.toNat - '0'.toNat

def hexDigit (c : Char) : ℕ :=
  if c.isDigit then decDigit c
  else if 'a' ≤ c then c.toNat - 'a'.toNat + 10
  else c.toNat - 'A'.toNat + 10

/-- The C library saturates at the limits of `long`, and the result is cut to 32 bits. -/
def atoi (str : List Char) : Word :=
  BitVec.ofNat 32 (min (digitsValue 10 decDigit str) (2 ^ 63 - 1))

/-- `sscanf` with `%x`, the `0x` in front included. -/
def sscanfHex (str : List Char) : Word :=
  BitVec.ofNat 32 (min (digitsValue 16 hexDigit (str.drop 2)) (2 ^ 64 - 1))

def evalToken (env : Env) : Token → Except Halt Word
  | .dec str => .ok (atoi str)
  | .hex str => .ok (sscanfHex str)
  | .reg str =>
    match env.reg (str.drop 1) with
    | some v => .ok v
    | none => .error (.failure (some (.unknownRegister str)))
  | _ => .error (.failure none)

def Env.deref (env : Env) (addr : Word) : Except Halt Word :=
  match env.load addr with
  | some v => .ok v
  | none => .error .assertion

/-- Division is the one operator that refuses an operand. -/
def BinOp.guard (o : BinOp) (val2 : Word) : Except Halt PUnit :=
  if o = .div ∧ val2 = 0 then .error (.failure (some .divisionByZero))
  else .ok ⟨⟩

def BinOp.apply : BinOp → Word → Word → Word
  | .add, val1, val2 => val1 + val2
  | .sub, val1, val2 => val1 - val2
  | .mul, val1, val2 => val1 * val2
  | .div, val1, val2 => val1 / val2
  | .eq, val1, val2 => if val1 = val2 then 1 else 0
  | .neq, val1, val2 => if val1 ≠ val2 then 1 else 0
  | .and, val1, val2 => if val1 ≠ 0 ∧ val2 ≠ 0 then 1 else 0

/-- The body of `eval` (`_eval_sub`), its recursive calls as a parameter. -/
def evalSub (env : Env) (rec : List Token → Except Halt Word) : List Token → Except Halt Word
  | [] => .error (.failure none)
  | [t] => evalToken env t
  | tokens =>
    if checkParentheses tokens then rec (inner tokens)
    else
      match findMainOp tokens with
      | none => .error .assertion
      | some op =>
        match tokens[op]? with
        | some .deref => do
            let val2 ← rec (tokens.drop (op + 1))
            env.deref val2
        | some (.op o) => do
            let val1 ← rec (tokens.take op)
            let val2 ← rec (tokens.drop (op + 1))
            o.guard val2
            return o.apply val1 val2
        | _ => .error .assertion

/-- The recursive calls are on shorter ranges, so a bound above the length is never used up. -/
def evalLoop (env : Env) : ℕ → List Token → Except Halt Word
  | 0, _ => .error .assertion
  | fuel + 1, tokens => evalSub env (evalLoop env fuel) tokens

def eval (env : Env) (tokens : List Token) : Except Halt Word :=
  evalLoop env (tokens.length + 1) tokens

/-! ## The two debuggers -/

/-- The state of NEMU that expressions see. -/
structure NemuState where
  pc : Word
  gpr : Fin 32 → Word
  fcsr : Word
  fpr : Fin 32 → BitVec 64
  paddrRead : Word → Option Word

def regs : List (List Char) :=
  [['$', '0'], ['r', 'a'], ['s', 'p'], ['g', 'p'], ['t', 'p'], ['t', '0'], ['t', '1'], ['t', '2'],
   ['s', '0'], ['s', '1'], ['a', '0'], ['a', '1'], ['a', '2'], ['a', '3'], ['a', '4'], ['a', '5'],
   ['a', '6'], ['a', '7'], ['s', '2'], ['s', '3'], ['s', '4'], ['s', '5'], ['s', '6'], ['s', '7'],
   ['s', '8'], ['s', '9'], ['s', '1', '0'], ['s', '1', '1'], ['t', '3'], ['t', '4'], ['t', '5'],
   ['t', '6']]

/-- `f` and a number below 32. -/
def fprIndex : List Char → Option (Fin 32)
  | 'f' :: c :: str =>
    let index := digitsValue 10 decDigit (c :: str)
    if h : (c :: str).all Char.isDigit ∧ index < 32 then some ⟨index, h.2⟩ else none
  | _ => none

def isaRegStr2val (cpu : NemuState) (s : List Char) : Option Word :=
  if s = ['p', 'c'] then some cpu.pc
  else
    match (List.finRange 32).find? fun i => regs[i.val]? = some s with
    | some i => some (cpu.gpr i)
    | none =>
      if s = ['f', 'c', 's', 'r'] then some cpu.fcsr
      else (fprIndex s).map fun i => (cpu.fpr i).setWidth 32

def evalText (env : Env) (e : List Char) : Except Halt Word := do
  let tokens ← makeToken e
  eval env tokens

theorem evalText_of_makeToken {env : Env} {e : List Char} {tokens : List Token}
    (h : makeToken e = .ok tokens) : evalText env e = eval env tokens := by
  rw [evalText, h]
  rfl

inductive Debugger
  | nemu (cpu : NemuState)
  | sdb (fr : List Char → Option (BitVec 64)) (fm : Word → Option Word)

namespace Debugger

def env : Debugger → Env
  | nemu cpu => ⟨isaRegStr2val cpu, cpu.paddrRead⟩
  | sdb fr fm => ⟨fun name => (fr name).map fun v => v.setWidth 32, fm⟩

/-- What `make_token` and then `eval` (`_eval_sub`) say through their success flags. -/
def flagged (d : Debugger) (e : List Char) : Except Stop Word :=
  (evalText d.env e).mapError Halt.stop

end Debugger

/-- NEMU's `expr`, with its `*success`. -/
def expr (cpu : NemuState) (e : List Char) : Except Stop Word := (Debugger.nemu cpu).flagged e

/-- `expr_t::eval`: the number handed to the caller and what has been printed.  The flag is
dropped, a failure is 0.  `none` is an assertion. -/
def exprEval (fr : List Char → Option (BitVec 64)) (fm : Word → Option Word) (e : List Char) :
    Option (BitVec 64 × Option Message) :=
  match evalText (Debugger.sdb fr fm).env e with
  | .ok v => some (v.setWidth 64, none)
  | .error (.failure printed) => some (0, printed)
  | .error .assertion => none

end Sdb
end Jyd
