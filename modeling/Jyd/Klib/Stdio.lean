import Jyd.Hdl.Signal
import Jyd.Text.Numeral

/-!
# Stdio — the formatter of klib

`meta_printf` sends the characters of a format to a sink one at a time; `printf` and
`sprintf` differ in the sink only.  A C string is the list of its characters, without the
terminating zero.  What C leaves undefined, and a panic, are `none`.
-/

namespace Jyd
namespace Klib

open Hdl Text

/-- The two sizes of `long` the library is built with. -/
inductive Abi
  | ilp32
  | lp64
  deriving DecidableEq, Repr

inductive LengthModifier
  | none
  | l
  | ll
  deriving DecidableEq, Repr

/-- The width of the argument that `va_arg` fetches. -/
def LengthModifier.bits (abi : Abi) : LengthModifier → ℕ
  | none => 32
  | l => match abi with
    | .ilp32 => 32
    | .lp64 => 64
  | ll => 64

inductive Arg (abi : Abi)
  | int (v : Word)
  | long (v : BitVec (LengthModifier.l.bits abi))
  | longLong (v : BitVec 64)
  | str (s : List Char)

structure FormatInfo where
  zeroPad : Bool
  width : BitVec 32
  len : LengthModifier
  conversion : Char
  deriving DecidableEq, Repr

/-! ## Reading a conversion -/

def isdigit (c : Char) : Bool := '0' ≤ c && c ≤ '9'

def parseDecNum (beg : List Char) : BitVec 64 × List Char :=
  ((beg.takeWhile isdigit).foldl (fun out c => out * 10 + BitVec.ofNat 64 c.toNat - 48) 0,
    beg.dropWhile isdigit)

def parseLength : List Char → LengthModifier × List Char
  | 'l' :: 'l' :: fmt => (.ll, fmt)
  | 'l' :: fmt => (.l, fmt)
  | fmt => (.none, fmt)

/-- What stands behind a `%`; `none` if the format ends there. -/
def parseFormat (fmt : List Char) : Option (FormatInfo × List Char) :=
  let zeroPad := fmt.head? == some '0'
  let fmt := if zeroPad then fmt.tail else fmt
  let width := parseDecNum fmt
  let len := parseLength width.2
  match len.2 with
  | conversion :: rest => some (⟨zeroPad, width.1.setWidth 32, len.1, conversion⟩, rest)
  | [] => none

/-! ## Sending characters -/

section Sink

variable {σ : Type} (putch : Char → σ → Bool × σ)

/-- Characters up to the first that the sink refuses. -/
def putAll : List Char → σ → Bool × σ
  | [], s => (true, s)
  | c :: cs, s => if (putch c s).1 then putAll cs (putch c s).2 else (false, (putch c s).2)

-- In the helpers `cnt` is a pointer to the counter: `cnt++` moves the pointer, and the
-- counter of the caller stays as it is.

def putWithpad (info : FormatInfo) (text : List Char) (s : σ) : Bool × σ :=
  let pad := if info.zeroPad then '0' else ' '
  putAll putch (List.replicate (info.width.toNat - text.length) pad ++ text) s

/-- The digits of a number of either sign, from the end of the buffer on. -/
def writeSigned : ℕ → BitVec 64 → List Char → Option (List Char)
  | 0, _, _ => none
  | room + 1, d, buf =>
    let tmp := (d.srem 10).toInt
    let buf := Char.ofNat (48 + (if tmp < 0 then -tmp else tmp).toNat) :: buf
    if d.sdiv 10 = 0 then some buf else writeSigned room (d.sdiv 10) buf

def putSnum (info : FormatInfo) (d : BitVec 64) (s : σ) : Option (Bool × σ) := do
  let sign := if d.slt 0 then putch '-' s else (true, s)
  if sign.1 then
    let buf ← writeSigned 64 d []
    some (putWithpad putch info buf sign.2)
  else some (false, sign.2)

def tableLow (d : ℕ) : Char := "0123456789abcdef".toList.getD d '0'
def tableUp (d : ℕ) : Char := "0123456789ABCDEF".toList.getD d '0'

def putUnum (info : FormatInfo) (u : BitVec 64) (base : ℕ) (upper : Bool) (s : σ) :
    Option (Bool × σ) := do
  let buf ← writeDigits (if upper then tableUp else tableLow) base 64 u.toNat []
  some (putWithpad putch info buf s)

variable {abi : Abi}

/-- `va_arg` with the type the length modifier names, widened to 64 bits. -/
def loadVlenVar (signed : Bool) : LengthModifier → List (Arg abi) →
    Option (BitVec 64 × List (Arg abi))
  | .none, .int v :: ap => some (if signed then v.signExtend 64 else v.setWidth 64, ap)
  | .l, .long v :: ap => some (if signed then v.signExtend 64 else v.setWidth 64, ap)
  | .ll, .longLong v :: ap => some (v, ap)
  | _, _ => none

/-- One conversion: what the helper answers, and the arguments left. -/
def convert (info : FormatInfo) (ap : List (Arg abi)) (s : σ) :
    Option ((Bool × σ) × List (Arg abi)) :=
  if info.conversion = 'c' then
    match ap with
    | .int v :: ap => some (putWithpad putch info [Char.ofNat (v.toNat % 256)] s, ap)
    | _ => none
  else if info.conversion = 's' then
    match ap with
    | .str text :: ap => some (putWithpad putch info text s, ap)
    | _ => none
  else if info.conversion = 'd' then do
    let d ← loadVlenVar true info.len ap
    some (← putSnum putch info d.1 s, d.2)
  else if info.conversion ∈ ['o', 'u', 'x', 'X'] then do
    let u ← loadVlenVar false info.len ap
    let base := if info.conversion = 'u' then 10 else if info.conversion = 'o' then 8 else 16
    some (← putUnum putch info u.1 base (info.conversion == 'X') s, u.2)
  else none

/-- Every round takes at least one character of the format. -/
def metaPrintfLoop : ℕ → List Char → List (Arg abi) → BitVec 32 → σ → Option (BitVec 32 × σ)
  | _, [], _, cnt, s => some (cnt, s)
  | 0, _ :: _, _, _, _ => none
  | fuel + 1, c :: fmt, ap, cnt, s =>
    if c = '%' then do
      let (info, fmt) ← parseFormat fmt
      let ((more, s), ap) ← convert putch info ap s
      if more then metaPrintfLoop fuel fmt ap cnt s else some (cnt, s)
    -- here `cnt` is the counter itself; a refused character returns `false`
    else if (putch c s).1 then metaPrintfLoop fuel fmt ap (cnt + 1) (putch c s).2
    else some (0, (putch c s).2)

def metaPrintf (fmt : List Char) (ap : List (Arg abi)) (s : σ) : Option (BitVec 32 × σ) :=
  metaPrintfLoop putch fmt.length fmt ap 0 s

end Sink

/-! ## The two sinks -/

variable {abi : Abi}

def printfPutch (c : Char) (out : List Char) : Bool × List Char := (true, out ++ [c])

/-- The value returned and the characters sent to the terminal. -/
def printf (fmt : List Char) (ap : List (Arg abi)) : Option (BitVec 32 × List Char) :=
  metaPrintf printfPutch fmt ap []

/-- Memory and the pointer behind the last character. -/
structure Buffer where
  mem : ℕ → Char
  cur : ℕ

def sprintfPutchToStr (c : Char) (b : Buffer) : Bool × Buffer :=
  (true, ⟨Function.update b.mem b.cur c, b.cur + 1⟩)

/-- The value returned, and memory with the pointer behind the terminating zero. -/
def vsprintf (mem : ℕ → Char) (out : ℕ) (fmt : List Char) (ap : List (Arg abi)) :
    Option (BitVec 32 × Buffer) := do
  let (cnt, b) ← metaPrintf sprintfPutchToStr fmt ap ⟨mem, out⟩
  some (cnt, (sprintfPutchToStr (Char.ofNat 0) b).2)

def sprintf (mem : ℕ → Char) (out : ℕ) (fmt : List Char) (ap : List (Arg abi)) :
    Option (BitVec 32 × Buffer) :=
  vsprintf mem out fmt ap

end Klib
end Jyd
