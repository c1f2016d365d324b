import Mathlib.Data.Nat.Digits.Defs

/-!
# Numeral — digits from remainders

Formatters fill a buffer from its end with the remainders of repeated divisions.  As long
as the buffer has room, what stands in it is the minimal numeral of the value.  A fraction
has a fixed number of digits, and rounding it up is a carry through its nines.
-/

namespace Jyd
namespace Text

/-! ## Minimal numerals -/

/-- The digits of `n`, most significant first; zero has one digit. -/
def numeral (b n : ℕ) : List ℕ := if n = 0 then [0] else (Nat.digits b n).reverse

section Numeral

variable {b : ℕ}

theorem numeral_of_lt {n : ℕ} (h : n < b) : numeral b n = [n] := by
  by_cases hn : n = 0
  · rw [numeral, if_pos hn, hn]
  · rw [numeral, if_neg hn, Nat.digits_of_lt b n hn h]
    rfl

theorem numeral_of_ge (hb : 1 < b) {n : ℕ} (h : b ≤ n) :
    numeral b n = numeral b (n / b) ++ [n % b] := by
  have hn : n ≠ 0 := by omega
  have hq : n / b ≠ 0 := Nat.pos_iff_ne_zero.mp (Nat.div_pos h (by omega))
  rw [numeral, numeral, if_neg hn, if_neg hq, Nat.digits_def' hb (by omega), List.reverse_cons]

theorem numeral_lt_base (hb : 1 < b) {n d : ℕ} (h : d ∈ numeral b n) : d < b := by
  rw [numeral] at h
  split at h
  · rw [List.mem_singleton] at h
    omega
  · exact Nat.digits_lt_base hb (List.mem_reverse.mp h)

theorem numeral_length_le (hb : 1 < b) {k n : ℕ} (hk : 0 < k) (hn : n < b ^ k) :
    (numeral b n).length ≤ k := by
  induction k generalizing n with
  | zero => omega
  | succ k ih =>
    by_cases h : n < b
    · rw [numeral_of_lt h, List.length_singleton]
      omega
    · have hge := Nat.not_lt.mp h
      have hq : 0 < n / b := Nat.div_pos hge (by omega)
      have hfit : n / b < b ^ k := Nat.div_lt_of_lt_mul (by rwa [← Nat.pow_succ'])
      have hmore : 0 < k := Nat.pos_of_ne_zero fun hzero => by
        rw [hzero, Nat.pow_zero] at hfit
        omega
      rw [numeral_of_ge hb hge, List.length_append, List.length_singleton]
      exact Nat.succ_le_succ (ih hmore hfit)

theorem numeral_ne_nil (hb : 1 < b) (n : ℕ) : numeral b n ≠ [] := by
  by_cases h : n < b
  · rw [numeral_of_lt h]
    exact List.cons_ne_nil _ _
  · rw [numeral_of_ge hb (Nat.not_lt.mp h)]
    exact List.append_ne_nil_of_right_ne_nil _ (List.cons_ne_nil _ _)

/-- No leading zero. -/
theorem numeral_head_ne_zero (hb : 1 < b) {n : ℕ} (hn : n ≠ 0) : (numeral b n).head? ≠ some 0 := by
  induction n using Nat.strong_induction_on with
  | _ n ih =>
    by_cases h : n < b
    · rw [numeral_of_lt h]
      exact fun hzero => hn (Option.some.inj hzero)
    · have hge := Nat.not_lt.mp h
      have hq : 0 < n / b := Nat.div_pos hge (by omega)
      rw [numeral_of_ge hb hge, List.head?_append, Option.or_of_isSome
        (List.isSome_head?.mpr (numeral_ne_nil hb _))]
      exact ih _ (Nat.div_lt_self (by omega) hb) (by omega)

/-- Reading the digits of a number from the first on, in any representation of numbers. -/
theorem foldl_numeral {R : Type*} (hb : 1 < b) {f : ℕ → R} {step : R → ℕ → R}
    (hstep : ∀ q d, d < b → step (f q) d = f (q * b + d)) (n : ℕ) :
    (numeral b n).foldl step (f 0) = f n := by
  induction n using Nat.strong_induction_on with
  | _ n ih =>
    by_cases hlt : n < b
    · rw [numeral_of_lt hlt, List.foldl_cons, List.foldl_nil, hstep 0 n hlt, Nat.zero_mul,
        Nat.zero_add]
    · have hge := Nat.not_lt.mp hlt
      rw [numeral_of_ge hb hge, List.foldl_append, ih _ (Nat.div_lt_self (by omega) hb),
        List.foldl_cons, List.foldl_nil, hstep _ _ (Nat.mod_lt n (by omega)), Nat.div_add_mod']

end Numeral

/-- The characters of digits. -/
def digitText (ds : List ℕ) : List Char := ds.map Nat.digitChar

/-! ## Filling a buffer -/

/-- Write the digits of `u` in front of `acc` into a buffer with room for `room` more; `none`
if they do not fit. -/
def writeDigits (table : ℕ → Char) (b : ℕ) : ℕ → ℕ → List Char → Option (List Char)
  | 0, _, _ => none
  | room + 1, u, acc =>
    if u / b = 0 then some (table (u % b) :: acc)
    else writeDigits table b room (u / b) (table (u % b) :: acc)

theorem writeDigits_eq {b : ℕ} (hb : 1 < b) (table : ℕ → Char) {room u : ℕ}
    (hroom : 0 < room) (hu : u < b ^ room) (acc : List Char) :
    writeDigits table b room u acc = some ((numeral b u).map table ++ acc) := by
  induction room generalizing u acc with
  | zero => omega
  | succ room ih =>
    rw [writeDigits]
    by_cases hlt : u < b
    · rw [if_pos (Nat.div_eq_of_lt hlt), numeral_of_lt hlt, Nat.mod_eq_of_lt hlt]
      rfl
    · have hge := Nat.not_lt.mp hlt
      have hq : 0 < u / b := Nat.div_pos hge (by omega)
      have hfit : u / b < b ^ room := Nat.div_lt_of_lt_mul (by rwa [← Nat.pow_succ'])
      have hmore : 0 < room := Nat.pos_of_ne_zero fun hzero => by
        rw [hzero, Nat.pow_zero] at hfit
        omega
      rw [if_neg (by omega), ih hmore hfit, numeral_of_ge hb hge]
      simp

/-! ## A fixed number of digits -/

/-- The low `k` digits of `n`, most significant first. -/
def fixedDigits (b : ℕ) : ℕ → ℕ → List ℕ
  | 0, _ => []
  | k + 1, n => fixedDigits b k (n / b) ++ [n % b]

theorem fixedDigits_length (b k n : ℕ) : (fixedDigits b k n).length = k := by
  induction k generalizing n with
  | zero => rfl
  | succ k ih => rw [fixedDigits, List.length_append, ih, List.length_singleton]

theorem fixedDigits_lt_base {b : ℕ} (hb : 0 < b) (k n : ℕ) :
    ∀ d ∈ fixedDigits b k n, d < b := by
  induction k generalizing n with
  | zero => exact fun d hd => absurd hd List.not_mem_nil
  | succ k ih =>
    intro d hd
    rw [fixedDigits, List.mem_append, List.mem_singleton] at hd
    rcases hd with hd | rfl
    · exact ih _ d hd
    · exact Nat.mod_lt n hb

/-- Another digit behind a fraction. -/
theorem fixedDigits_snoc {b d : ℕ} (hd : d < b) (k n : ℕ) :
    fixedDigits b (k + 1) (b * n + d) = fixedDigits b k n ++ [d] := by
  rw [fixedDigits, Nat.mul_add_div (by omega), Nat.div_eq_of_lt hd, Nat.add_zero,
    Nat.mul_add_mod, Nat.mod_eq_of_lt hd]

/-- Add one to a numeral given from its last digit on; the flag is the carry out of it. -/
def increment (b : ℕ) : List ℕ → List ℕ × Bool
  | [] => ([], true)
  | d :: ds =>
    if d + 1 = b then (0 :: (increment b ds).1, (increment b ds).2)
    else ((d + 1) :: ds, false)

theorem increment_fixedDigits {b : ℕ} (hb : 0 < b) (k n : ℕ) (hn : n < b ^ k) :
    increment b (fixedDigits b k n).reverse =
      ((fixedDigits b k ((n + 1) % b ^ k)).reverse, decide (n + 1 = b ^ k)) := by
  induction k generalizing n with
  | zero =>
    obtain rfl : n = 0 := by simpa using hn
    rfl
  | succ k ih =>
    have hq : n / b < b ^ k := Nat.div_lt_of_lt_mul (by rwa [← Nat.pow_succ'])
    have hdm := Nat.div_add_mod n b
    have hm := Nat.mod_lt n hb
    simp only [fixedDigits, List.reverse_append, List.reverse_singleton, List.singleton_append,
      increment]
    by_cases hnine : n % b + 1 = b
    · -- the last digit turns to zero and the carry goes on
      have hsucc : n + 1 = b * (n / b + 1) := by
        rw [Nat.mul_add, Nat.mul_one]
        omega
      have hcarry : decide (n / b + 1 = b ^ k) = decide (n + 1 = b ^ (k + 1)) := by
        refine decide_eq_decide.mpr ?_
        rw [hsucc, Nat.pow_succ', Nat.mul_right_inj (by omega)]
      rw [if_pos hnine, ih _ hq, ← hcarry, hsucc, Nat.pow_succ', Nat.mul_mod_mul_left,
        Nat.mul_div_cancel_left _ hb, Nat.mul_mod_right]
    · have hfit : n + 1 < b ^ (k + 1) := by
        have hmul : b * (n / b + 1) ≤ b * b ^ k := Nat.mul_le_mul_left _ hq
        rw [Nat.mul_add, Nat.mul_one] at hmul
        rw [Nat.pow_succ']
        omega
      have hlast : n % b + 1 < b := by omega
      have hsucc : n + 1 = b * (n / b) + (n % b + 1) := by omega
      have hdiv : (n + 1) / b = n / b := by
        rw [hsucc, Nat.mul_add_div hb, Nat.div_eq_of_lt hlast, Nat.add_zero]
      have hmod : (n + 1) % b = n % b + 1 := by
        rw [hsucc, Nat.mul_add_mod, Nat.mod_eq_of_lt hlast]
      rw [if_neg hnine, Nat.mod_eq_of_lt hfit, decide_eq_false (by omega), hdiv, hmod]

end Text
end Jyd
