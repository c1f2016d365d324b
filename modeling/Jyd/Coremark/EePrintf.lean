import Jyd.Hdl.Signal
import Jyd.Text.Numeral
import Mathlib.Algebra.Order.Floor.Semifield
import Mathlib.Data.List.TakeWhile
import Mathlib.Data.Rat.Floor

/-!
# EePrintf — the formatter of the benchmark and its rationals

`ee_vsprintf` knows the conversions the benchmark uses; `int` and `long` are both 32 bits
wide.  `ee_print_ratio` divides by hand: twelve digits behind the point and a thirteenth
that decides the rounding.
-/

namespace Jyd
namespace Coremark

open Hdl Text

/-! ## The formatter -/

inductive Arg
  | str (s : Option (List Char))
  | int (v : Word)
  deriving DecidableEq, Repr

def digitTable (d : ℕ) : Char := "0123456789abcdef".toList.getD d '0'

/-- `none` if the digits do not fit into `tmp`. -/
def formatUint (value : Word) (base : ℕ) (width : ℤ) (left zeropad : Bool) : Option (List Char) := do
  let tmp ← writeDigits digitTable base 16 value.toNat []
  let missing := (width - tmp.length).toNat
  if left then some (tmp ++ List.replicate missing ' ')
  else some (List.replicate missing (if zeropad then '0' else ' ') ++ tmp)

def formatInt (value : Word) (base : ℕ) (width : ℤ) (left zeropad : Bool) : Option (List Char) := do
  if value.slt 0 then
    let out ← formatUint (0 - value) base (width - 1) left zeropad
    some ('-' :: out)
  else formatUint value base width left zeropad

def formatStr (s : Option (List Char)) (width : ℕ) (left : Bool) : List Char :=
  let text := s.getD "<NULL>".toList
  let pad := List.replicate (width - text.length) ' '
  if left then text ++ pad else pad ++ text

def isDigit (c : Char) : Bool := '0' ≤ c && c ≤ '9'

/-- Drop an optional character. -/
def skip (c : Char) (fmt : List Char) : Bool × List Char :=
  if fmt.head? = some c then (true, fmt.tail) else (false, fmt)

def readWidth (fmt : List Char) : ℕ :=
  (fmt.takeWhile isDigit).foldl (fun width c => width * 10 + (c.toNat - 48)) 0

/-- The text behind one `%`, and the rest of the format and the arguments.  A format that
ends in a conversion, or an argument of the wrong kind, is undefined. -/
def convert (fmt : List Char) (args : List Arg) :
    Option (List Char × List Char × List Arg) := do
  let (left, fmt) := skip '-' fmt
  let (zeropad, fmt) := skip '0' fmt
  let width := readWidth fmt
  let (_, fmt) := skip 'l' (fmt.dropWhile isDigit)
  match fmt, args with
  | 'c' :: fmt, .int v :: args => some ([Char.ofNat (v.toNat % 256)], fmt, args)
  | 's' :: fmt, .str s :: args => some (formatStr s width left, fmt, args)
  | 'd' :: fmt, .int v :: args => do some (← formatInt v 10 width left zeropad, fmt, args)
  | 'i' :: fmt, .int v :: args => do some (← formatInt v 10 width left zeropad, fmt, args)
  | 'u' :: fmt, .int v :: args => do some (← formatUint v 10 width left zeropad, fmt, args)
  | 'x' :: fmt, .int v :: args => do some (← formatUint v 16 width left zeropad, fmt, args)
  | '%' :: fmt, args => some (['%'], fmt, args)
  | c :: fmt, args =>
    if c ∈ ['c', 's', 'd', 'i', 'u', 'x'] then none else some (['%', c], fmt, args)
  | [], _ => none

/-- The loop over the format; every round takes at least one character of it. -/
def eeVsprintfLoop : ℕ → List Char → List Arg → Option (List Char)
  | _, [], _ => some []
  | 0, _ :: _, _ => none
  | fuel + 1, c :: fmt, args =>
    if c ≠ '%' then (eeVsprintfLoop fuel fmt args).map (c :: ·)
    else do
      let (out, fmt, args) ← convert fmt args
      (eeVsprintfLoop fuel fmt args).map (out ++ ·)

def eeVsprintf (fmt : List Char) (args : List Arg) : Option (List Char) :=
  eeVsprintfLoop fmt.length fmt args

/-- The characters sent to the UART; `none` if they overflow `buf`. -/
def eePrintf (fmt : List Char) (args : List Arg) : Option (List Char) := do
  let buf ← eeVsprintf fmt args
  if buf.length < 1024 then some (buf.takeWhile (· ≠ Char.ofNat 0)) else none

/-! ## Rationals -/

section Ratio

variable (numerator denominator numeratorScale : Word)

def scaled : BitVec 64 := numerator.setWidth 64 * numeratorScale.setWidth 64

def denominator64 : BitVec 64 := denominator.setWidth 64

def whole : BitVec 64 := scaled numerator numeratorScale / denominator64 denominator

/-- `remainder` before round `k` of the division. -/
def remainder : ℕ → BitVec 64
  | 0 => scaled numerator numeratorScale % denominator64 denominator
  | k + 1 => remainder k * 10 % denominator64 denominator

/-- `fraction[k]` as the division leaves it. -/
def fractionDigit (k : ℕ) : Char :=
  Char.ofNat
    ((48 + (remainder numerator denominator numeratorScale k * 10 /
      denominator64 denominator).toNat) % 256)

def fraction : List Char :=
  (List.range 13).map (fractionDigit numerator denominator numeratorScale)

/-- The carry through the nines, from the last digit on; `true` if it leaves the fraction. -/
def carryNines : List Char → List Char × Bool
  | [] => ([], true)
  | c :: cs =>
    if c = '9' then ('0' :: (carryNines cs).1, (carryNines cs).2)
    else (Char.ofNat (c.toNat + 1) :: cs, false)

/-- The integer part and the twelve digits that are printed. -/
def roundedRatio : BitVec 64 × List Char :=
  let digits := fraction numerator denominator numeratorScale
  let w := whole numerator denominator numeratorScale
  if '5' ≤ digits.getD 12 '0' then
    let carried := carryNines (digits.take 12).reverse
    (if carried.2 then w + 1 else w, carried.1.reverse)
  else (w, digits.take 12)

def eePrintRatio (prefixText : List Char) (newline : Bool) : Option (List Char) :=
  let ending := if newline then ['\n'] else []
  if denominator = 0 then
    eePrintf "%s0.000000000000%s".toList [.str prefixText, .str ending]
  else
    let r := roundedRatio numerator denominator numeratorScale
    eePrintf "%s%u.%s%s".toList
      [.str prefixText, .int (r.1.setWidth 32), .str r.2, .str ending]

end Ratio

/-! ## What the formatter prints -/

theorem digitTable_eq {d : ℕ} (h : d < 16) : digitTable d = Nat.digitChar d := by
  revert d
  decide

theorem formatUint_decimal (v : Word) :
    formatUint v 10 0 false false = some (digitText (numeral 10 v.toNat)) := by
  have hfit : v.toNat < 10 ^ 16 := by
    have := v.isLt
    omega
  have htable : (numeral 10 v.toNat).map digitTable = digitText (numeral 10 v.toNat) := by
    refine List.map_congr_left fun d hd => digitTable_eq ?_
    have := numeral_lt_base (by decide) hd
    omega
  rw [formatUint, writeDigits_eq (by decide) _ (by decide) hfit, htable, List.append_nil]
  simp

theorem eePrintf_of_text {fmt out : List Char} {args : List Arg}
    (h : eeVsprintf fmt args = some out) (hlen : out.length < 1024) (htext : Char.ofNat 0 ∉ out) :
    eePrintf fmt args = some out := by
  have hall : out.takeWhile (· ≠ Char.ofNat 0) = out := by
    refine List.takeWhile_eq_self_iff.mpr fun c hc => ?_
    exact decide_eq_true fun hnul => htext (hnul ▸ hc)
  rw [eePrintf, h]
  show (if out.length < 1024 then _ else none) = _
  rw [if_pos hlen, hall]

theorem not_nul_digitText {ds : List ℕ} (h : ∀ d ∈ ds, d < 10) : Char.ofNat 0 ∉ digitText ds := by
  have hchar : ∀ d < 10, Nat.digitChar d ≠ Char.ofNat 0 := by decide
  intro hmem
  rcases List.mem_map.mp hmem with ⟨d, hd, hnul⟩
  exact hchar d (h d hd) hnul

theorem vsprintf_ratio (a digits ending : List Char) (v : Word) :
    eeVsprintf "%s%u.%s%s".toList [.str a, .int v, .str digits, .str ending] =
      some (a ++ (digitText (numeral 10 v.toNat) ++ '.' :: (digits ++ ending))) := by
  have hstr : ∀ (s : List Char) (fmt : List Char) (args : List Arg),
      convert ('s' :: fmt) (.str s :: args) = some (s, fmt, args) := by
    intro s fmt args
    simp [convert, skip, readWidth, formatStr, isDigit]
  have huint : ∀ (fmt : List Char) (args : List Arg), convert ('u' :: fmt) (.int v :: args) =
      some (digitText (numeral 10 v.toNat), fmt, args) := by
    intro fmt args
    have hv := formatUint_decimal v
    simp [convert, skip, readWidth, isDigit, hv]
  have hfmt : "%s%u.%s%s".toList = ['%', 's', '%', 'u', '.', '%', 's', '%', 's'] := by decide
  rw [eeVsprintf, hfmt]
  simp [eeVsprintfLoop, hstr, huint]

/-! ## The division -/

section Division

variable (numerator : Word) {denominator : Word} (numeratorScale : Word)

/-- The numerator of the fractional part. -/
def rest (numerator denominator numeratorScale : Word) : ℕ :=
  numerator.toNat * numeratorScale.toNat % denominator.toNat

/-- The first `k` digits behind the point, as a number. -/
def leading (numerator denominator numeratorScale : Word) (k : ℕ) : ℕ :=
  rest numerator denominator numeratorScale * 10 ^ k / denominator.toNat

theorem scaled_toNat (n s : Word) : (scaled n s).toNat = n.toNat * s.toNat := by
  have hfit : n.toNat * s.toNat < 2 ^ 64 := by
    have hmul := Nat.mul_lt_mul'' n.isLt s.isLt
    rwa [← Nat.pow_add] at hmul
  have hn := n.isLt
  have hs := s.isLt
  rw [scaled, BitVec.toNat_mul, BitVec.toNat_setWidth, BitVec.toNat_setWidth,
    Nat.mod_eq_of_lt (by omega : n.toNat < 2 ^ 64), Nat.mod_eq_of_lt (by omega : s.toNat < 2 ^ 64),
    Nat.mod_eq_of_lt hfit]

theorem denominator64_toNat (d : Word) : (denominator64 d).toNat = d.toNat := by
  have hd := d.isLt
  rw [denominator64, BitVec.toNat_setWidth, Nat.mod_eq_of_lt (by omega)]

variable (denominator) in
theorem whole_lt :
    (whole numerator denominator numeratorScale).toNat + 1 < 2 ^ 64 := by
  have hn := numerator.isLt
  have hs := numeratorScale.isLt
  have hmul : numerator.toNat * numeratorScale.toNat ≤ (2 ^ 32 - 1) * (2 ^ 32 - 1) :=
    Nat.mul_le_mul (by omega) (by omega)
  have hle : (whole numerator denominator numeratorScale).toNat ≤
      numerator.toNat * numeratorScale.toNat := by
    rw [whole, BitVec.toNat_udiv, scaled_toNat]
    exact Nat.div_le_self _ _
  omega

variable (denominator) in
theorem whole_toNat :
    (whole numerator denominator numeratorScale).toNat =
      numerator.toNat * numeratorScale.toNat / denominator.toNat := by
  rw [whole, BitVec.toNat_udiv, scaled_toNat, denominator64_toNat]

variable (hd : denominator ≠ 0)

include hd

theorem denominator_pos : 0 < denominator.toNat := by
  have hne : denominator.toNat ≠ 0 := fun h => hd (BitVec.eq_of_toNat_eq h)
  omega

/-- The remainders stay below the denominator, so no step leaves 64 bits. -/
theorem remainder_toNat (k : ℕ) :
    (remainder numerator denominator numeratorScale k).toNat =
        rest numerator denominator numeratorScale * 10 ^ k % denominator.toNat ∧
      (remainder numerator denominator numeratorScale k).toNat * 10 < 2 ^ 64 := by
  have hpos := denominator_pos hd
  have hden := denominator.isLt
  have hsmall : ∀ k, (remainder numerator denominator numeratorScale k).toNat =
      rest numerator denominator numeratorScale * 10 ^ k % denominator.toNat →
      (remainder numerator denominator numeratorScale k).toNat * 10 < 2 ^ 64 := by
    intro k hk
    have hlt := Nat.mod_lt (rest numerator denominator numeratorScale * 10 ^ k) hpos
    omega
  induction k with
  | zero =>
    have hzero : (remainder numerator denominator numeratorScale 0).toNat =
        rest numerator denominator numeratorScale * 10 ^ 0 % denominator.toNat := by
      rw [remainder, BitVec.toNat_umod, scaled_toNat, denominator64_toNat, rest, Nat.pow_zero,
        Nat.mul_one, Nat.mod_mod]
    exact ⟨hzero, hsmall 0 hzero⟩
  | succ k ih =>
    have hstep : (remainder numerator denominator numeratorScale (k + 1)).toNat =
        rest numerator denominator numeratorScale * 10 ^ (k + 1) % denominator.toNat := by
      have hten : (10 : BitVec 64).toNat = 10 := rfl
      rw [remainder, BitVec.toNat_umod, BitVec.toNat_mul, hten, Nat.mod_eq_of_lt ih.2, ih.1,
        denominator64_toNat, Nat.mod_mul_mod, Nat.pow_succ, Nat.mul_assoc]
    exact ⟨hstep, hsmall _ hstep⟩

/-- One more round is one more digit. -/
theorem leading_succ (k : ℕ) :
    leading numerator denominator numeratorScale (k + 1) =
      10 * leading numerator denominator numeratorScale k +
        (remainder numerator denominator numeratorScale k).toNat * 10 / denominator.toNat := by
  have hpos := denominator_pos hd
  rw [leading, leading, (remainder_toNat numerator numeratorScale hd k).1, Nat.pow_succ, ← Nat.mul_assoc]
  generalize rest numerator denominator numeratorScale * 10 ^ k = a
  have hsplit : a * 10 = denominator.toNat * (10 * (a / denominator.toNat)) +
      a % denominator.toNat * 10 := by
    calc a * 10 = (denominator.toNat * (a / denominator.toNat) + a % denominator.toNat) * 10 := by
          rw [Nat.div_add_mod]
      _ = denominator.toNat * (10 * (a / denominator.toNat)) + a % denominator.toNat * 10 := by ring
  rw [hsplit, Nat.mul_add_div hpos]

theorem quotient_lt_ten (k : ℕ) :
    (remainder numerator denominator numeratorScale k).toNat * 10 / denominator.toNat < 10 := by
  have hpos := denominator_pos hd
  have hlt := Nat.mod_lt (rest numerator denominator numeratorScale * 10 ^ k) hpos
  rw [← (remainder_toNat numerator numeratorScale hd k).1] at hlt
  exact Nat.div_lt_of_lt_mul (Nat.mul_lt_mul_of_pos_right hlt (by decide))

theorem fractionDigit_eq (k : ℕ) :
    fractionDigit numerator denominator numeratorScale k =
      Nat.digitChar ((remainder numerator denominator numeratorScale k).toNat * 10 /
        denominator.toNat) := by
  have hten : (10 : BitVec 64).toNat = 10 := rfl
  have hchar : ∀ d < 10, Char.ofNat ((48 + d) % 256) = Nat.digitChar d := by decide
  rw [fractionDigit, BitVec.toNat_udiv, BitVec.toNat_mul, hten,
    Nat.mod_eq_of_lt (remainder_toNat numerator numeratorScale hd k).2, denominator64_toNat]
  exact hchar _ (quotient_lt_ten numerator numeratorScale hd k)

/-- The rounds write the digits of the fraction one after the other. -/
theorem digits_eq (k : ℕ) :
    (List.range k).map (fractionDigit numerator denominator numeratorScale) =
      digitText (fixedDigits 10 k (leading numerator denominator numeratorScale k)) := by
  induction k with
  | zero => rfl
  | succ k ih =>
    rw [List.range_succ, List.map_append, ih, leading_succ numerator numeratorScale hd,
      fixedDigits_snoc (quotient_lt_ten numerator numeratorScale hd k), digitText, digitText, List.map_append]
    simp only [List.map_cons, List.map_nil, fractionDigit_eq numerator numeratorScale hd]

theorem leading_lt (k : ℕ) : leading numerator denominator numeratorScale k < 10 ^ k := by
  have hrest : rest numerator denominator numeratorScale < denominator.toNat :=
    Nat.mod_lt _ (denominator_pos hd)
  exact Nat.div_lt_of_lt_mul (Nat.mul_lt_mul_of_pos_right hrest (by positivity))

end Division

/-! ## Rounding -/

theorem carryNines_eq {ds : List ℕ} (h : ∀ d ∈ ds, d < 10) :
    carryNines (digitText ds) = (digitText (increment 10 ds).1, (increment 10 ds).2) := by
  induction ds with
  | nil => rfl
  | cons d ds ih =>
    have hd : d < 10 := h d List.mem_cons_self
    have hnine : ∀ d < 10, Nat.digitChar d = '9' ↔ d + 1 = 10 := by decide
    have hsucc : ∀ d < 9, Char.ofNat ((Nat.digitChar d).toNat + 1) = Nat.digitChar (d + 1) := by
      decide
    rw [digitText, List.map_cons, ← digitText, carryNines, increment,
      ih fun e he => h e (List.mem_cons_of_mem _ he)]
    by_cases hlast : d + 1 = 10
    · rw [if_pos hlast, if_pos ((hnine d hd).mpr hlast)]
      rfl
    · rw [if_neg hlast, if_neg fun hc => hlast ((hnine d hd).mp hc), hsucc d (by omega)]
      rfl

/-- The exact value times 10¹², rounded half up. -/
def roundedHalfUp (numerator denominator numeratorScale : Word) : ℕ :=
  ⌊((numerator.toNat * numeratorScale.toNat : ℕ) : ℚ) / denominator.toNat * 10 ^ 12 + 1 / 2⌋₊

section Rounding

variable (numerator : Word) {denominator : Word} (numeratorScale : Word) (hd : denominator ≠ 0)

include hd

omit hd in
/-- The thirteenth digit is five or more when the remainder is at least a half. -/
theorem guard_digit {r d : ℕ} (hlt : r < d) :
    (2 * r + d) / (2 * d) = if 5 ≤ r * 10 / d then 1 else 0 := by
  have hfive : 5 ≤ r * 10 / d ↔ d ≤ 2 * r := by
    rw [Nat.le_div_iff_mul_le (by omega)]
    omega
  by_cases hhalf : d ≤ 2 * r
  · rw [if_pos (hfive.mpr hhalf), Nat.div_eq_of_lt_le (k := 1) (by omega) (by omega)]
  · rw [if_neg (fun h => hhalf (hfive.mp h)), Nat.div_eq_of_lt (by omega)]

theorem roundedHalfUp_eq :
    roundedHalfUp numerator denominator numeratorScale =
      numerator.toNat * numeratorScale.toNat / denominator.toNat * 10 ^ 12 +
        leading numerator denominator numeratorScale 12 +
        if 5 ≤ (remainder numerator denominator numeratorScale 12).toNat * 10 / denominator.toNat
        then 1 else 0 := by
  have hpos := denominator_pos hd
  have hrem := (remainder_toNat numerator numeratorScale hd 12).1
  rw [hrem, leading, rest]
  rw [roundedHalfUp]
  generalize numerator.toNat * numeratorScale.toNat = a
  generalize denominator.toNat = d at hpos ⊢
  have hfloor : ((a : ℕ) : ℚ) / d * 10 ^ 12 + 1 / 2 =
      ((2 * a * 10 ^ 12 + d : ℕ) : ℚ) / (2 * d : ℕ) := by
    have hne : (d : ℚ) ≠ 0 := by exact_mod_cast hpos.ne'
    push_cast
    field_simp
    ring
  rw [hfloor, Nat.floor_div_eq_div]
  -- take out the integer part and the twelve digits
  have hsplit : 2 * a * 10 ^ 12 + d =
      2 * d * (a / d * 10 ^ 12 + a % d * 10 ^ 12 / d) + (2 * (a % d * 10 ^ 12 % d) + d) := by
    calc 2 * a * 10 ^ 12 + d = 2 * (d * (a / d) + a % d) * 10 ^ 12 + d := by rw [Nat.div_add_mod]
      _ = 2 * d * (a / d * 10 ^ 12) + 2 * (a % d * 10 ^ 12) + d := by ring
      _ = 2 * d * (a / d * 10 ^ 12) +
          2 * (d * (a % d * 10 ^ 12 / d) + a % d * 10 ^ 12 % d) + d := by rw [Nat.div_add_mod]
      _ = _ := by ring
  have hlt := Nat.mod_lt (a % d * 10 ^ 12) hpos
  rw [hsplit, Nat.mul_add_div (by omega), guard_digit hlt]

theorem roundedRatio_eq :
    let r := roundedHalfUp numerator denominator numeratorScale
    (roundedRatio numerator denominator numeratorScale).1.toNat = r / 10 ^ 12 ∧
      (roundedRatio numerator denominator numeratorScale).2 =
        digitText (fixedDigits 10 12 (r % 10 ^ 12)) := by
  intro r
  have hv := leading_lt numerator numeratorScale hd 12
  have hr : r = _ := roundedHalfUp_eq numerator numeratorScale hd
  have hten := quotient_lt_ten numerator numeratorScale hd 12
  have hw := whole_toNat numerator denominator numeratorScale
  have hroom := whole_lt numerator denominator numeratorScale
  rw [← hw] at hr
  have hlow : (fraction numerator denominator numeratorScale).take 12 =
      digitText (fixedDigits 10 12 (leading numerator denominator numeratorScale 12)) :=
    digits_eq numerator numeratorScale hd 12
  have hguard : '5' ≤ (fraction numerator denominator numeratorScale).getD 12 '0' ↔
      5 ≤ (remainder numerator denominator numeratorScale 12).toNat * 10 / denominator.toNat := by
    have hchar : ∀ d < 10, '5' ≤ Nat.digitChar d ↔ 5 ≤ d := by decide
    rw [← hchar _ hten, ← fractionDigit_eq numerator numeratorScale hd]
    rfl
  rw [roundedRatio, hlow]
  generalize leading numerator denominator numeratorScale 12 = v at hv hr ⊢
  generalize whole numerator denominator numeratorScale = w at hroom hr ⊢
  by_cases hfive : 5 ≤ (remainder numerator denominator numeratorScale 12).toNat * 10 /
      denominator.toNat
  · rw [if_pos hfive] at hr
    rw [if_pos (hguard.mpr hfive), digitText, ← List.map_reverse, ← digitText, carryNines_eq,
      increment_fixedDigits (by decide) 12 v hv]
    · have hdigits : r % 10 ^ 12 = (v + 1) % 10 ^ 12 := by omega
      have hback : ∀ ds : List ℕ, (digitText ds.reverse).reverse = digitText ds := by
        intro ds
        rw [digitText, List.map_reverse, List.reverse_reverse, ← digitText]
      rw [hdigits]
      dsimp only
      rw [hback]
      refine ⟨?_, rfl⟩
      -- the carry goes through all twelve digits, or stops before
      by_cases hall : v + 1 = 10 ^ 12
      · have hone : (w + 1).toNat = w.toNat + 1 := by
          rw [BitVec.toNat_add]
          exact Nat.mod_eq_of_lt hroom
        have hdiv : r / 10 ^ 12 = w.toNat + 1 := by omega
        rw [decide_eq_true hall, hdiv, ← hone]
        rfl
      · have hdiv : r / 10 ^ 12 = w.toNat := by omega
        rw [decide_eq_false hall, hdiv]
        rfl
    · exact fun d hd' => fixedDigits_lt_base (by decide) 12 v d (List.mem_reverse.mp hd')
  · rw [if_neg hfive] at hr
    rw [if_neg (fun h => hfive (hguard.mp h))]
    have hdiv : r / 10 ^ 12 = w.toNat := by omega
    have hmod : r % 10 ^ 12 = v := by omega
    rw [hdiv, hmod]
    dsimp only
    exact ⟨rfl, rfl⟩

end Rounding

/-- For every numerator, scale and non-zero denominator the exact value is printed rounded
half up to twelve places, with its integer part modulo 2³², and no intermediate value of the
division leaves its 64 bits. -/
theorem ratio_prints_rounded (prefixText : List Char) (numerator denominator numeratorScale : Word)
    (newline : Bool) (hd : denominator ≠ 0) (hroom : prefixText.length ≤ 999)
    (htext : Char.ofNat 0 ∉ prefixText) :
    eePrintRatio numerator denominator numeratorScale prefixText newline =
        some (prefixText ++
          (digitText (numeral 10
              (roundedHalfUp numerator denominator numeratorScale / 10 ^ 12 % 2 ^ 32)) ++
            '.' :: (digitText (fixedDigits 10 12
                (roundedHalfUp numerator denominator numeratorScale % 10 ^ 12)) ++
              if newline then ['\n'] else []))) ∧
      (scaled numerator numeratorScale).toNat = numerator.toNat * numeratorScale.toNat ∧
      (∀ k, (remainder numerator denominator numeratorScale k).toNat * 10 < 2 ^ 64) ∧
      (whole numerator denominator numeratorScale).toNat + 1 < 2 ^ 64 := by
  refine ⟨?_, scaled_toNat _ _, fun k => (remainder_toNat numerator numeratorScale hd k).2,
    whole_lt numerator denominator numeratorScale⟩
  rcases roundedRatio_eq numerator numeratorScale hd with
    ⟨hwhole, hfraction⟩
  have hint : ((roundedRatio numerator denominator numeratorScale).1.setWidth 32).toNat =
      roundedHalfUp numerator denominator numeratorScale / 10 ^ 12 % 2 ^ 32 := by
    rw [BitVec.toNat_setWidth, hwhole]
  have hout := vsprintf_ratio prefixText (roundedRatio numerator denominator numeratorScale).2
    (if newline then ['\n'] else []) ((roundedRatio numerator denominator numeratorScale).1.setWidth 32)
  rw [eePrintRatio, if_neg hd]
  rw [hint, hfraction] at hout
  simp only [hfraction]
  refine eePrintf_of_text hout ?_ ?_
  · have hdigits := numeral_length_le (b := 10) (k := 10) (by decide) (by decide)
      (show roundedHalfUp numerator denominator numeratorScale / 10 ^ 12 % 2 ^ 32 < 10 ^ 10 by omega)
    have hend : (if newline then ['\n'] else []).length ≤ 1 := by cases newline <;> decide
    simp only [List.length_append, List.length_cons, digitText, List.length_map,
      fixedDigits_length]
    omega
  · have hnewline : Char.ofNat 0 ∉ (if newline then ['\n'] else []) := by cases newline <;> decide
    have hnumeral := not_nul_digitText fun d hd => numeral_lt_base (b := 10)
      (n := roundedHalfUp numerator denominator numeratorScale / 10 ^ 12 % 2 ^ 32) (by decide) hd
    have hfixed := not_nul_digitText (fixedDigits_lt_base (b := 10) (by decide) 12
      (roundedHalfUp numerator denominator numeratorScale % 10 ^ 12))
    have hpoint : Char.ofNat 0 ≠ '.' := by decide
    simp only [List.mem_append, List.mem_cons, not_or]
    exact ⟨htext, hnumeral, hpoint, hfixed, hnewline⟩

/-- Two thirds, with a label and a newline. -/
theorem ratio_prints_rounded_thirds :
    eePrintRatio 2 3 1 "x ".toList true =
        some ("x ".toList ++ (digitText (numeral 10 (roundedHalfUp 2 3 1 / 10 ^ 12 % 2 ^ 32)) ++
          '.' :: (digitText (fixedDigits 10 12 (roundedHalfUp 2 3 1 % 10 ^ 12)) ++ ['\n']))) ∧
      eePrintRatio 2 3 1 "x ".toList true = some "x 0.666666666667\n".toList :=
  ⟨(ratio_prints_rounded "x ".toList 2 3 1 true (by decide) (by decide) (by decide)).1, by decide⟩

end Coremark
end Jyd
