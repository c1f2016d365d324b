import Jyd.Klib.Stdio
import Mathlib.Algebra.BigOperators.Group.List.Basic
import Mathlib.Data.List.TakeWhile

/-!
# Printf — what the formatter emits and what it returns

A call is a list of pieces: literal characters and conversions with their arguments.  The
characters of the call are the characters of its pieces; the value returned counts the
literal ones only.
-/

namespace Jyd
namespace Klib

open Hdl Text

/-! ## Calls -/

inductive IntConversion
  | d
  | u
  | o
  | x
  | X
  deriving DecidableEq, Repr

namespace IntConversion

def char : IntConversion → Char
  | d => 'd'
  | u => 'u'
  | o => 'o'
  | x => 'x'
  | X => 'X'

def base : IntConversion → ℕ
  | d => 10
  | u => 10
  | o => 8
  | x => 16
  | X => 16

/-- The character of a digit. -/
def digit (conv : IntConversion) (n : ℕ) : Char :=
  match conv with
  | X => (Nat.digitChar n).toUpper
  | _ => Nat.digitChar n

end IntConversion

/-- A conversion and the value for it. -/
inductive Content (abi : Abi) (len : LengthModifier)
  | c (v : Word)
  | s (text : List Char)
  | integer (conv : IntConversion) (v : BitVec (len.bits abi))

/-- A conversion as it stands in a format; no width is width zero. -/
structure Directive (abi : Abi) where
  zeroPad : Bool
  width : ℕ
  width_lt : width < 2 ^ 31
  len : LengthModifier
  content : Content abi len

inductive Piece (abi : Abi)
  | literal (c : Char) (plain : c ≠ '%' ∧ c ≠ Char.ofNat 0)
  | directive (d : Directive abi)

variable {abi : Abi}

def Content.char {len : LengthModifier} : Content abi len → Char
  | c _ => 'c'
  | s _ => 's'
  | integer conv _ => conv.char

def LengthModifier.text : LengthModifier → List Char
  | none => []
  | l => ['l']
  | ll => ['l', 'l']

namespace Directive

/-- The conversion without its `%`. -/
def spec (d : Directive abi) : List Char :=
  (if d.zeroPad then ['0'] else []) ++
    ((if d.width = 0 then [] else digitText (numeral 10 d.width)) ++
      (d.len.text ++ [d.content.char]))

def arg (d : Directive abi) : Arg abi :=
  match d with
  | ⟨_, _, _, _, .c v⟩ => .int v
  | ⟨_, _, _, _, .s text⟩ => .str text
  | ⟨_, _, _, .none, .integer _ v⟩ => .int v
  | ⟨_, _, _, .l, .integer _ v⟩ => .long v
  | ⟨_, _, _, .ll, .integer _ v⟩ => .longLong v

def info (d : Directive abi) : FormatInfo :=
  ⟨d.zeroPad, BitVec.ofNat 32 d.width, d.len, d.content.char⟩

/-- Padding in front of a text, up to the width. -/
def padded (d : Directive abi) (text : List Char) : List Char :=
  List.replicate (d.width - text.length) (if d.zeroPad then '0' else ' ') ++ text

end Directive

/-- The minus sign of a signed value. -/
def signText {n : ℕ} (conv : IntConversion) (v : BitVec n) : List Char :=
  if conv = .d ∧ v.toInt < 0 then ['-'] else []

/-- The magnitude a conversion shows. -/
def magnitude {n : ℕ} (conv : IntConversion) (v : BitVec n) : ℕ :=
  if conv = .d then v.toInt.natAbs else v.toNat

def digits {n : ℕ} (conv : IntConversion) (v : BitVec n) : List Char :=
  (numeral conv.base (magnitude conv v)).map conv.digit

/-- The characters the code emits for a conversion: the sign stands in front of the padding
and does not count for it. -/
def Directive.text (d : Directive abi) : List Char :=
  match d.content with
  | .c v => d.padded [Char.ofNat (v.toNat % 256)]
  | .s text => d.padded text
  | .integer conv v => signText conv v ++ d.padded (digits conv v)

namespace Piece

def format : Piece abi → List Char
  | literal c _ => [c]
  | directive d => '%' :: d.spec

def arg? : Piece abi → Option (Arg abi)
  | literal _ _ => none
  | directive d => some d.arg

def text : Piece abi → List Char
  | literal c _ => [c]
  | directive d => d.text

def literals : Piece abi → ℕ
  | literal _ _ => 1
  | directive _ => 0

end Piece

def format (ps : List (Piece abi)) : List Char := ps.flatMap Piece.format
def args (ps : List (Piece abi)) : List (Arg abi) := ps.filterMap Piece.arg?
def text (ps : List (Piece abi)) : List Char := ps.flatMap Piece.text

/-- The number of literal characters. -/
def literals (ps : List (Piece abi)) : ℕ := (ps.map Piece.literals).sum

/-! ## Reading a conversion back -/

theorem isdigit_digitText {n : ℕ} : ∀ c ∈ digitText (numeral 10 n), isdigit c = true := by
  have hchar : ∀ d < 10, isdigit (Nat.digitChar d) = true := by decide
  intro c hc
  rcases List.mem_map.mp hc with ⟨d, hd, rfl⟩
  exact hchar d (numeral_lt_base (by decide) hd)

/-- Reading a numeral, from its first digit on. -/
theorem foldl_digitText (n : ℕ) :
    (digitText (numeral 10 n)).foldl (fun out c => out * 10 + BitVec.ofNat 64 c.toNat - 48) 0 =
      BitVec.ofNat 64 n := by
  have hchar : ∀ d < 10, BitVec.ofNat 64 (Nat.digitChar d).toNat = BitVec.ofNat 64 d + 48 := by
    decide
  rw [digitText, List.foldl_map]
  refine foldl_numeral (f := BitVec.ofNat 64) (by decide) (fun q d hd => ?_) n
  rw [hchar d hd, ← BitVec.add_assoc, BitVec.add_sub_cancel, BitVec.ofNat_add, BitVec.ofNat_mul]
  rfl

theorem parseDecNum_append {n : ℕ} {rest : List Char} (h : ∀ c ∈ rest.head?, isdigit c = false) :
    parseDecNum ((if n = 0 then [] else digitText (numeral 10 n)) ++ rest) =
      (BitVec.ofNat 64 n, rest) := by
  have htake : rest.takeWhile isdigit = [] := by
    cases rest with
    | nil => rfl
    | cons c rest => rw [List.takeWhile_cons, h c rfl]; rfl
  have hdrop : rest.dropWhile isdigit = rest := by
    cases rest with
    | nil => rfl
    | cons c rest => rw [List.dropWhile_cons, h c rfl]; rfl
  by_cases hn : n = 0
  · rw [if_pos hn, List.nil_append, parseDecNum, htake, hdrop, hn]
    rfl
  · rw [if_neg hn, parseDecNum, List.takeWhile_append_of_pos isdigit_digitText,
      List.dropWhile_append_of_pos isdigit_digitText, htake, hdrop, List.append_nil, foldl_digitText]

theorem Content.char_mem {len : LengthModifier} (content : Content abi len) :
    content.char ∈ ['c', 's', 'd', 'u', 'o', 'x', 'X'] := by
  cases content with
  | c v => exact List.mem_cons_self
  | s text => exact List.mem_cons_of_mem _ List.mem_cons_self
  | integer conv v =>
    have hchar : ∀ conv : IntConversion, conv.char ∈ ['c', 's', 'd', 'u', 'o', 'x', 'X'] := by
      intro conv
      cases conv <;> decide
    exact hchar conv

theorem Content.char_cases {len : LengthModifier} (content : Content abi len) :
    isdigit content.char = false ∧ content.char ≠ 'l' := by
  have hall : ∀ c ∈ ['c', 's', 'd', 'u', 'o', 'x', 'X'], isdigit c = false ∧ c ≠ 'l' := by
    simp only [List.forall_mem_cons, List.not_mem_nil, false_imp_iff, implies_true]
    decide
  exact hall _ content.char_mem

/-- The character behind the width. -/
theorem Content.behind_width {len : LengthModifier} (content : Content abi len) (rest : List Char) :
    ∀ c ∈ (len.text ++ content.char :: rest).head?, isdigit c = false := by
  intro c hc
  cases len with
  | none => exact Option.some.inj hc ▸ content.char_cases.1
  | l => exact Option.some.inj hc ▸ (by decide : isdigit 'l' = false)
  | ll => exact Option.some.inj hc ▸ (by decide : isdigit 'l' = false)

theorem parseLength_append {len : LengthModifier} (content : Content abi len) (rest : List Char) :
    parseLength (len.text ++ content.char :: rest) = (len, content.char :: rest) := by
  have hl := content.char_cases.2
  cases len with
  | none =>
    show parseLength (content.char :: rest) = _
    rw [parseLength] <;> intros <;> simp_all
  | l =>
    show parseLength ('l' :: content.char :: rest) = _
    rw [parseLength]
    intros
    simp_all
  | ll => rfl

theorem parseFormat_spec (d : Directive abi) (rest : List Char) :
    parseFormat (d.spec ++ rest) = some (d.info, rest) := by
  have hnext := d.content.behind_width rest
  have hhead : (((if d.width = 0 then [] else digitText (numeral 10 d.width)) ++
      (d.len.text ++ d.content.char :: rest)).head? == some '0') = false := by
    by_cases hw : d.width = 0
    · rw [if_pos hw, List.nil_append, beq_eq_false_iff_ne]
      exact fun h => absurd (hnext '0' h) (by decide)
    · have hzero : ∀ a < 10, Nat.digitChar a = '0' → a = 0 := by decide
      rw [if_neg hw, beq_eq_false_iff_ne, List.head?_append_of_ne_nil, digitText, List.head?_map]
      · intro h
        rcases Option.map_eq_some_iff.mp h with ⟨a, ha, hchar⟩
        have hlt := numeral_lt_base (by decide) (List.mem_of_head? ha)
        exact numeral_head_ne_zero (by decide) hw (hzero a hlt hchar ▸ ha)
      · exact fun h => numeral_ne_nil (by decide) d.width (List.map_eq_nil_iff.mp h)
  have hwidth : (BitVec.ofNat 64 d.width).setWidth 32 = BitVec.ofNat 32 d.width := by
    apply BitVec.eq_of_toNat_eq
    rw [BitVec.toNat_setWidth, BitVec.toNat_ofNat, BitVec.toNat_ofNat]
    omega
  have hspec : d.spec ++ rest = (if d.zeroPad then ['0'] else []) ++
      ((if d.width = 0 then [] else digitText (numeral 10 d.width)) ++
        (d.len.text ++ d.content.char :: rest)) := by
    rw [Directive.spec]
    simp only [List.append_assoc, List.singleton_append]
  rw [hspec, parseFormat, Directive.info]
  cases d.zeroPad with
  | false =>
    simp only [Bool.false_eq_true, if_false, List.nil_append, hhead]
    rw [parseDecNum_append hnext, hwidth, parseLength_append]
  | true =>
    simp only [if_true, List.singleton_append, List.head?_cons, beq_self_eq_true, List.tail_cons]
    rw [parseDecNum_append hnext, hwidth, parseLength_append]

/-! ## What a conversion emits -/

theorem writeSigned_eq (room : ℕ) (d : BitVec 64) (buf : List Char) :
    writeSigned room d buf = writeDigits Nat.digitChar 10 room d.toInt.natAbs buf := by
  have hten : (10 : BitVec 64).toInt = 10 := rfl
  have hchar : ∀ a < 10, Char.ofNat (48 + a) = Nat.digitChar a := by decide
  induction room generalizing d buf with
  | zero => rfl
  | succ room ih =>
    have hrem : (if (d.srem 10).toInt < 0 then -(d.srem 10).toInt else (d.srem 10).toInt).toNat =
        d.toInt.natAbs % 10 := by
      have hnat : (d.srem 10).toInt.natAbs = d.toInt.natAbs % 10 := by
        rw [BitVec.toInt_srem, hten, Int.natAbs_tmod]
        rfl
      rw [← hnat]
      split <;> omega
    have hquot : (d.sdiv 10).toInt.natAbs = d.toInt.natAbs / 10 := by
      rw [BitVec.toInt_sdiv_of_ne_or_ne _ _ (Or.inr (by decide)), hten, Int.natAbs_tdiv]
      rfl
    have hzero : d.sdiv 10 = 0 ↔ d.toInt.natAbs / 10 = 0 := by
      rw [← hquot, Int.natAbs_eq_zero, ← BitVec.toInt_inj]
      rfl
    simp only [writeSigned, writeDigits, hzero, hrem, ih, hquot,
      hchar _ (Nat.mod_lt _ (show 0 < 10 by decide))]

/-- The value that `va_arg` and the widening to 64 bits produce. -/
theorem loadVlenVar_arg (signed : Bool) (zeroPad : Bool) (width : ℕ) (hwidth : width < 2 ^ 31)
    (len : LengthModifier) (conv : IntConversion) (v : BitVec (len.bits abi)) (ap : List (Arg abi)) :
    loadVlenVar signed len
        (Directive.arg ⟨zeroPad, width, hwidth, len, .integer conv v⟩ :: ap) =
      some (if signed then v.signExtend 64 else v.setWidth 64, ap) := by
  cases len with
  | none => rfl
  | l => rfl
  | ll =>
    have hself : (if signed then v.signExtend 64 else v.setWidth 64) = v := by
      cases signed
      · exact BitVec.setWidth_eq v
      · exact BitVec.signExtend_eq v
    rw [hself]
    rfl

theorem LengthModifier.bits_le (len : LengthModifier) : len.bits abi ≤ 64 := by
  cases abi <;> cases len <;> decide

section Accepting

variable {σ : Type} (step : Char → σ → σ)

/-- A sink that refuses nothing. -/
def accepting (c : Char) (s : σ) : Bool × σ := (true, step c s)

/-- The sink after it has taken a text. -/
def taken (text : List Char) (s : σ) : σ := text.foldl (fun s c => step c s) s

theorem taken_append (a b : List Char) (s : σ) :
    taken step (a ++ b) s = taken step b (taken step a s) := List.foldl_append

theorem putAll_accepting (cs : List Char) (s : σ) :
    putAll (accepting step) cs s = (true, taken step cs s) := by
  induction cs generalizing s with
  | nil => rfl
  | cons c cs ih => exact ih (step c s)

theorem putWithpad_info (d : Directive abi) (text : List Char) (s : σ) :
    putWithpad (accepting step) d.info text s = (true, taken step (d.padded text) s) := by
  have hwidth : d.info.width.toNat = d.width := by
    have := d.width_lt
    rw [Directive.info, BitVec.toNat_ofNat, Nat.mod_eq_of_lt (by omega)]
  rw [putWithpad, hwidth, putAll_accepting]
  rfl

theorem putSnum_info (d : Directive abi) (v : BitVec 64) (s : σ) :
    putSnum (accepting step) d.info v s =
      some (true, taken step (signText .d v ++ d.padded (digits .d v)) s) := by
  have hfit : v.toInt.natAbs < 10 ^ 64 := by
    have := v.isLt
    have := BitVec.toInt_lt (x := v)
    have := BitVec.le_toInt v
    omega
  have hbuf : writeSigned 64 v [] = some (digits .d v) := by
    rw [writeSigned_eq, writeDigits_eq (by decide) _ (by decide) hfit, List.append_nil]
    rfl
  have hslt : v.slt 0 = decide (v.toInt < 0) := rfl
  rw [putSnum, hbuf, hslt, taken_append]
  by_cases hneg : v.toInt < 0
  · have hsign : signText .d v = ['-'] := if_pos ⟨rfl, hneg⟩
    rw [decide_eq_true hneg, hsign]
    exact congrArg some (putWithpad_info step d _ _)
  · have hsign : signText .d v = [] := if_neg fun h => hneg h.2
    rw [decide_eq_false hneg, hsign]
    exact congrArg some (putWithpad_info step d _ _)

theorem putUnum_info (d : Directive abi) {conv : IntConversion} (hconv : conv ≠ .d) (v : BitVec 64)
    (s : σ) :
    putUnum (accepting step) d.info v conv.base (conv == .X) s =
      some (true, taken step (d.padded (digits conv v)) s) := by
  have hbase : 1 < conv.base ∧ conv.base ≤ 16 := by cases conv <;> decide
  have hfit : v.toNat < conv.base ^ 64 :=
    lt_of_lt_of_le v.isLt (Nat.pow_le_pow_left hbase.1 64)
  have htable : ∀ a < 16, (if (conv == .X) = true then tableUp else tableLow) a = conv.digit a := by
    cases conv <;> decide
  have hdigits : (numeral conv.base v.toNat).map (if (conv == .X) = true then tableUp else tableLow) =
      digits conv v := by
    rw [digits, magnitude, if_neg hconv]
    refine List.map_congr_left fun a ha => htable a ?_
    have := numeral_lt_base hbase.1 ha
    omega
  rw [putUnum, writeDigits_eq hbase.1 _ (by decide) hfit, hdigits, List.append_nil]
  exact congrArg some (putWithpad_info step d _ _)

theorem digits_congr {n m : ℕ} {conv : IntConversion} {v : BitVec n} {w : BitVec m}
    (h : magnitude conv v = magnitude conv w) : digits conv v = digits conv w := by
  rw [digits, digits, h]

/-- Widening keeps what a signed conversion shows. -/
theorem signed_widened {len : LengthModifier} (v : BitVec (len.bits abi)) :
    signText .d (v.signExtend 64) = signText .d v ∧ digits .d (v.signExtend 64) = digits .d v := by
  have hint : (v.signExtend 64).toInt = v.toInt := BitVec.toInt_signExtend_of_le len.bits_le
  refine ⟨?_, digits_congr ?_⟩
  · rw [signText, signText, hint]
  · rw [magnitude, magnitude, if_pos rfl, if_pos rfl, hint]

theorem unsigned_widened {conv : IntConversion} (hconv : conv ≠ .d) {len : LengthModifier}
    (v : BitVec (len.bits abi)) :
    signText conv v = [] ∧ digits conv (v.setWidth 64) = digits conv v := by
  have hnat : (v.setWidth 64).toNat = v.toNat := BitVec.toNat_setWidth_of_le len.bits_le
  refine ⟨if_neg fun h => hconv h.1, digits_congr ?_⟩
  rw [magnitude, magnitude, if_neg hconv, if_neg hconv, hnat]

theorem convert_integer {info : FormatInfo} {conv : IntConversion}
    (hconv : info.conversion = conv.char) (ap : List (Arg abi)) (s : σ) :
    convert (accepting step) info ap s =
      if conv = .d then
        (loadVlenVar true info.len ap).bind fun d =>
          (putSnum (accepting step) info d.1 s).bind fun r => some (r, d.2)
      else
        (loadVlenVar false info.len ap).bind fun u =>
          (putUnum (accepting step) info u.1 conv.base (conv == .X) s).bind fun r =>
            some (r, u.2) := by
  unfold convert
  rw [hconv]
  cases conv <;> rfl

theorem convert_directive (d : Directive abi) (ap : List (Arg abi)) (s : σ) :
    convert (accepting step) d.info (d.arg :: ap) s =
      some ((true, taken step d.text s), ap) := by
  rcases d with ⟨zeroPad, width, hwidth, len, content⟩
  cases content with
  | c v => exact congrArg (fun r => some (r, ap)) (putWithpad_info step _ _ s)
  | s text => exact congrArg (fun r => some (r, ap)) (putWithpad_info step _ _ s)
  | integer conv v =>
    have hlen : (Directive.mk zeroPad width hwidth len (.integer conv v)).info.len = len := rfl
    rw [convert_integer step rfl, hlen, loadVlenVar_arg, loadVlenVar_arg]
    have htext : (Directive.mk zeroPad width hwidth len (.integer conv v)).text = signText conv v ++
        (Directive.mk zeroPad width hwidth len (.integer conv v)).padded (digits conv v) := rfl
    rw [htext]
    by_cases hd : conv = .d
    · subst hd
      rw [if_pos rfl, Option.bind_some, if_pos rfl, putSnum_info, (signed_widened v).1,
        (signed_widened v).2]
      rfl
    · rw [if_neg hd, Option.bind_some, if_neg Bool.false_ne_true, putUnum_info step _ hd,
        (unsigned_widened hd v).2, (unsigned_widened hd v).1]
      rfl

/-! ## Whole calls -/

/-- A piece is read off the format, sent to the sink, and counted if it is a literal. -/
theorem metaPrintfLoop_piece (p : Piece abi) (fuel : ℕ) (fmt : List Char) (ap : List (Arg abi))
    (cnt : BitVec 32) (s : σ) :
    metaPrintfLoop (accepting step) (fuel + 1) (p.format ++ fmt) (p.arg?.toList ++ ap) cnt s =
      metaPrintfLoop (accepting step) fuel fmt ap (cnt + BitVec.ofNat 32 p.literals)
        (taken step p.text s) := by
  cases p with
  | literal c plain =>
    show metaPrintfLoop (accepting step) (fuel + 1) (c :: fmt) ap cnt s = _
    rw [metaPrintfLoop, if_neg plain.1]
    rfl
  | directive d =>
    show metaPrintfLoop (accepting step) (fuel + 1) ('%' :: (d.spec ++ fmt)) (d.arg :: ap) cnt s = _
    have hcnt : cnt + BitVec.ofNat 32 (Piece.directive d).literals = cnt := BitVec.add_zero cnt
    rw [metaPrintfLoop, if_pos rfl, parseFormat_spec, hcnt]
    show (convert (accepting step) d.info (d.arg :: ap) s).bind _ = _
    rw [convert_directive]
    rfl

theorem Piece.format_ne_nil (p : Piece abi) : 0 < p.format.length := by
  cases p <;> exact Nat.succ_pos _

theorem metaPrintfLoop_pieces (ps : List (Piece abi)) (fuel : ℕ) (hfuel : (format ps).length ≤ fuel)
    (cnt : BitVec 32) (s : σ) :
    metaPrintfLoop (accepting step) fuel (format ps) (args ps) cnt s =
      some (cnt + BitVec.ofNat 32 (literals ps), taken step (text ps) s) := by
  induction ps generalizing fuel cnt s with
  | nil =>
    have hcnt : cnt + BitVec.ofNat 32 (literals ([] : List (Piece abi))) = cnt :=
      BitVec.add_zero cnt
    rw [hcnt]
    cases fuel <;> rfl
  | cons p ps ih =>
    have hformat : format (p :: ps) = p.format ++ format ps := rfl
    have hargs : args (p :: ps) = p.arg?.toList ++ args ps := by
      cases p <;> rfl
    have hliterals : literals (p :: ps) = p.literals + literals ps := List.sum_cons
    have htext : text (p :: ps) = p.text ++ text ps := rfl
    have hpos := p.format_ne_nil
    rw [hformat, List.length_append] at hfuel
    rcases fuel with _ | fuel
    · omega
    · rw [hformat, hargs, metaPrintfLoop_piece, ih fuel (by omega), hliterals, htext, taken_append,
        BitVec.ofNat_add, BitVec.add_assoc]

theorem metaPrintf_pieces (ps : List (Piece abi)) (s : σ) :
    metaPrintf (accepting step) (format ps) (args ps) s =
      some (BitVec.ofNat 32 (literals ps), taken step (text ps) s) := by
  have hzero : 0 + BitVec.ofNat 32 (literals ps) = BitVec.ofNat 32 (literals ps) :=
    BitVec.zero_add _
  rw [metaPrintf, metaPrintfLoop_pieces step ps _ le_rfl, hzero]

end Accepting

theorem printf_pieces (ps : List (Piece abi)) :
    printf (format ps) (args ps) = some (BitVec.ofNat 32 (literals ps), text ps) := by
  have htaken : ∀ (cs out : List Char), taken (fun c out => out ++ [c]) cs out = out ++ cs := by
    intro cs
    induction cs with
    | nil => exact fun out => (List.append_nil out).symm
    | cons c cs ih =>
      intro out
      rw [taken, List.foldl_cons, ← taken, ih, List.append_assoc, List.singleton_append]
  have hsink : printfPutch = accepting fun c out => out ++ [c] := rfl
  rw [printf, hsink, metaPrintf_pieces, htaken, List.nil_append]

/-- A text in memory, and what stood around it before. -/
theorem taken_buffer (cs : List Char) (mem : ℕ → Char) (out : ℕ) :
    (taken (fun c b => (sprintfPutchToStr c b).2) cs ⟨mem, out⟩).cur = out + cs.length ∧
      ∀ a, (taken (fun c b => (sprintfPutchToStr c b).2) cs ⟨mem, out⟩).mem a =
        if a < out then mem a else cs[a - out]?.getD (mem a) := by
  induction cs generalizing mem out with
  | nil =>
    refine ⟨rfl, fun a => ?_⟩
    rw [List.getElem?_nil, Option.getD_none, ite_self]
    rfl
  | cons c cs ih =>
    rcases ih (Function.update mem out c) (out + 1) with ⟨hcur, hmem⟩
    refine ⟨hcur.trans (by rw [List.length_cons]; omega), fun a => (hmem a).trans ?_⟩
    rcases Nat.lt_trichotomy a out with hlt | rfl | hgt
    · rw [if_pos (by omega), if_pos hlt, Function.update_of_ne (by omega)]
    · rw [if_pos (by omega), if_neg (by omega), Function.update_self, Nat.sub_self]
      rfl
    · have hsub : a - out = (a - (out + 1)) + 1 := by omega
      rw [if_neg (by omega), if_neg (by omega), Function.update_of_ne (by omega), hsub,
        List.getElem?_cons_succ]

/-- `sprintf` stores the characters and a zero behind them. -/
theorem sprintf_pieces (mem : ℕ → Char) (out : ℕ) (ps : List (Piece abi)) :
    ∃ b : Buffer, sprintf mem out (format ps) (args ps) = some (BitVec.ofNat 32 (literals ps), b) ∧
      b.cur = out + (text ps).length + 1 ∧
      ∀ a, b.mem a =
        if a < out then mem a else (text ps ++ [Char.ofNat 0])[a - out]?.getD (mem a) := by
  have hsink : sprintfPutchToStr = accepting fun c b => (sprintfPutchToStr c b).2 := rfl
  have hbuffer := taken_buffer (text ps ++ [Char.ofNat 0]) mem out
  refine ⟨_, ?_, hbuffer.1.trans ?_, hbuffer.2⟩
  · rw [sprintf, vsprintf, hsink, metaPrintf_pieces, taken_append]
    rfl
  · rw [List.length_append, List.length_singleton, Nat.add_assoc]

/-! ## The value returned -/

theorem Directive.padded_eq_nil_iff (d : Directive abi) (text : List Char) :
    d.padded text = [] ↔ d.width = 0 ∧ text = [] := by
  rw [padded, List.append_eq_nil_iff, List.replicate_eq_nil_iff]
  constructor
  · rintro ⟨hwidth, rfl⟩
    exact ⟨by rwa [List.length_nil, Nat.sub_zero] at hwidth, rfl⟩
  · rintro ⟨hwidth, rfl⟩
    exact ⟨by rw [hwidth, List.length_nil], rfl⟩

/-- Only an empty string without a width emits nothing. -/
theorem Directive.text_eq_nil_iff (d : Directive abi) :
    d.text = [] ↔ d.width = 0 ∧ d.arg = .str [] := by
  rcases d with ⟨zeroPad, width, hwidth, len, content⟩
  cases content with
  | c v =>
    refine (padded_eq_nil_iff _ _).trans (and_congr Iff.rfl ?_)
    exact iff_of_false (List.cons_ne_nil _ _) (by rintro ⟨⟩)
  | s text =>
    refine (padded_eq_nil_iff _ _).trans (and_congr Iff.rfl ?_)
    constructor
    · rintro rfl
      rfl
    · rintro ⟨⟩
      rfl
  | integer conv v =>
    have hbase : 1 < conv.base := by cases conv <;> decide
    refine iff_of_false (fun h => ?_) (fun h => ?_)
    · have hdigits := ((padded_eq_nil_iff _ _).mp (List.append_eq_nil_iff.mp h).2).2
      exact numeral_ne_nil hbase _ (List.map_eq_nil_iff.mp hdigits)
    · cases len <;> cases h.2

theorem text_length (ps : List (Piece abi)) :
    literals ps ≤ (text ps).length ∧
      ((text ps).length = literals ps ↔ ∀ d, Piece.directive d ∈ ps → d.text = []) := by
  induction ps with
  | nil => exact ⟨le_rfl, fun _ d hd => absurd hd List.not_mem_nil, fun _ => rfl⟩
  | cons p ps ih =>
    have hliterals : literals (p :: ps) = p.literals + literals ps := List.sum_cons
    have htext : (text (p :: ps)).length = p.text.length + (text ps).length :=
      List.length_append
    rw [hliterals, htext]
    cases p with
    | literal c plain =>
      have hone : (Piece.literal c plain : Piece abi).text.length = 1 := rfl
      have hcount : (Piece.literal c plain : Piece abi).literals = 1 := rfl
      simp only [List.mem_cons, reduceCtorEq, false_or, ← ih.2, hone, hcount]
      omega
    | directive d =>
      have hcount : (Piece.directive d).literals = 0 := rfl
      have hlength : (Piece.directive d).text.length = 0 ↔ d.text = [] := List.length_eq_zero_iff
      simp only [List.mem_cons, Piece.directive.injEq, forall_eq_or_imp, ← ih.2, ← hlength, hcount]
      omega

theorem toInt_ofNat_eq_iff {n m : ℕ} (h : n ≤ m) :
    (BitVec.ofNat 32 n).toInt = m ↔ m = n ∧ n < 2 ^ 31 := by
  rw [BitVec.toInt_eq_toNat_cond, BitVec.toNat_ofNat]
  split <;> omega

/-- `printf` and `sprintf` return the number of characters emitted exactly when no conversion
emits any and the literal ones can be counted: only an empty string without a width is such a
conversion. -/
theorem returns_emitted_iff (ps : List (Piece abi)) :
    (∃ ret out, printf (format ps) (args ps) = some (ret, out) ∧
      (ret.toInt = out.length ↔
        (∀ d, Piece.directive d ∈ ps → d.width = 0 ∧ d.arg = .str []) ∧ literals ps < 2 ^ 31)) ∧
    ∀ mem out, ∃ ret b n, sprintf mem out (format ps) (args ps) = some (ret, b) ∧
      b.cur = out + n + 1 ∧
      (ret.toInt = n ↔
        (∀ d, Piece.directive d ∈ ps → d.width = 0 ∧ d.arg = .str []) ∧ literals ps < 2 ^ 31) := by
  have hcount : (BitVec.ofNat 32 (literals ps)).toInt = (text ps).length ↔
      (∀ d, Piece.directive d ∈ ps → d.width = 0 ∧ d.arg = .str []) ∧ literals ps < 2 ^ 31 := by
    simp only [toInt_ofNat_eq_iff (text_length ps).1, (text_length ps).2, Directive.text_eq_nil_iff]
  refine ⟨⟨_, _, printf_pieces ps, hcount⟩, fun mem out => ?_⟩
  rcases sprintf_pieces mem out ps with ⟨b, hrun, hcur, _⟩
  exact ⟨_, b, _, hrun, hcur, hcount⟩

/-- Two digits are emitted and none is counted. -/
theorem digits_not_counted :
    printf "%d".toList ([.int 42] : List (Arg .ilp32)) = some (0, "42".toList) := by
  decide

/-! ## The text of an integer -/

/-- Sign and digits fill the width together: zeros stand behind the sign, spaces before it. -/
def standardText {n : ℕ} (zeroPad : Bool) (width : ℕ) (conv : IntConversion) (v : BitVec n) :
    List Char :=
  let fill := width - ((signText conv v).length + (digits conv v).length)
  if zeroPad then signText conv v ++ (List.replicate fill '0' ++ digits conv v)
  else List.replicate fill ' ' ++ (signText conv v ++ digits conv v)

theorem text_standard_iff (d : Directive abi) {conv : IntConversion} {v : BitVec (d.len.bits abi)}
    (hcontent : d.content = .integer conv v) :
    d.text = standardText d.zeroPad d.width conv v ↔
      ¬(conv = .d ∧ v.toInt < 0 ∧ (digits conv v).length < d.width) := by
  have htext : d.text = signText conv v ++ d.padded (digits conv v) := by
    rw [Directive.text, hcontent]
  rw [htext, standardText, Directive.padded]
  by_cases hneg : conv = .d ∧ v.toInt < 0
  · have hsign : signText conv v = ['-'] := if_pos hneg
    rw [hsign]
    by_cases hroom : (digits conv v).length < d.width
    · -- one character too many
      refine iff_of_false (fun h => ?_) (fun h => h ⟨hneg.1, hneg.2, hroom⟩)
      have hlength := congrArg List.length h
      cases hzero : d.zeroPad <;> simp [hzero] at hlength <;> omega
    · refine iff_of_true ?_ (fun h => hroom h.2.2)
      have hfill : d.width - (digits conv v).length = 0 := by omega
      have hless : d.width - (['-'].length + (digits conv v).length) = 0 := by omega
      rw [hfill, hless]
      cases d.zeroPad <;> rfl
  · have hsign : signText conv v = [] := if_neg hneg
    refine iff_of_true ?_ (fun h => hneg ⟨h.1, h.2.1⟩)
    rw [hsign, List.length_nil, Nat.zero_add]
    cases d.zeroPad <;> rfl

/-- In any call an integer conversion emits the text of the C standard exactly when it is not
a negative `%d` whose digits alone are shorter than the width. -/
theorem integer_text_standard_iff (before after : List (Piece abi)) (zeroPad : Bool) (width : ℕ)
    (hwidth : width < 2 ^ 31) (len : LengthModifier) (conv : IntConversion)
    (v : BitVec (len.bits abi)) :
    let ps := before ++ .directive ⟨zeroPad, width, hwidth, len, .integer conv v⟩ :: after
    (printf (format ps) (args ps)).map Prod.snd =
        some (text before ++ (standardText zeroPad width conv v ++ text after)) ↔
      ¬(conv = .d ∧ v.toInt < 0 ∧ (digits conv v).length < width) := by
  intro ps
  have htext : text ps = text before ++
      ((Directive.mk zeroPad width hwidth len (.integer conv v)).text ++ text after) :=
    List.flatMap_append
  rw [printf_pieces, Option.map_some, Option.some_inj, htext, List.append_cancel_left_eq,
    List.append_cancel_right_eq]
  exact text_standard_iff ⟨zeroPad, width, hwidth, len, .integer conv v⟩ rfl

/-- The least 64-bit value, padded to the number of its digits. -/
theorem integer_text_standard_iff_min :
    let v : BitVec (LengthModifier.ll.bits .ilp32) := BitVec.intMin 64
    let ps : List (Piece .ilp32) := [.directive ⟨true, 19, by decide, .ll, .integer .d v⟩]
    format ps = "%019lld".toList ∧
      (printf (format ps) (args ps)).map Prod.snd = some (standardText true 19 .d v) := by
  intro v ps
  have hdigits : ¬(IntConversion.d = .d ∧ v.toInt < 0 ∧ (digits .d v).length < 19) := by decide
  refine ⟨by decide, ?_⟩
  have h := (integer_text_standard_iff [] [] true 19 (by decide) .ll .d v).mpr hdigits
  rwa [text, List.flatMap_nil, List.nil_append, List.append_nil] at h

/-- The sign comes before the spaces and is not part of the width. -/
theorem sign_before_spaces :
    printf "%5d".toList ([.int (-42)] : List (Arg .ilp32)) = some (0, "-   42".toList) ∧
      standardText false 5 .d (-42 : Word) = "  -42".toList := by
  decide

end Klib
end Jyd
