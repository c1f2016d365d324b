import Jyd.Hdl.BitField
import Jyd.Hdl.Signal
import Mathlib.Data.List.Nodup
import Mathlib.Tactic.IntervalCases
import Mathlib.Tactic.Ring

/-!
# InitStrings — memory images as initialisation strings of block RAMs

`coe_replace.py` spreads the words of an image over the block RAMs of the implemented
design.  A cell holds a few neighbouring bits of the words of an address range, packed into
strings of 256 bits, and some cells hold one more bit in their parity plane.
-/

namespace Jyd
namespace Coe

open Hdl

/-! ## Cells -/

inductive Primitive
  | RAMB18E1
  | RAMB36E1
  deriving DecidableEq, Repr

/-- The number of `INIT` strings a primitive exposes. -/
def nkeys : Primitive → ℕ
  | .RAMB18E1 => 64
  | .RAMB36E1 => 128

/-- The number of `INITP` strings of a primitive whose parity plane is in use. -/
def parityKeys : ℕ := 16

/-- A row of the layout table: whole groups of bits fit into a string, the addresses fill the
strings of the primitive, and the parity bit is none of the data bits. -/
structure CellSpec where
  ref : Primitive
  depth : ℕ
  firstBit : ℕ
  nbits : ℕ
  baseAddr : ℕ
  parityBit : Option ℕ
  packed : 256 / nbits * nbits = 256
  filled : nkeys ref * 256 = depth * nbits
  parity_filled : parityBit.isSome = true → parityKeys * 256 = depth
  parity_apart : ∀ b ∈ parityBit, firstBit + nbits ≤ b

/-- The columns of `IROM_SPECS`, with the primitive of the implemented design. -/
def iromSpecs : List CellSpec :=
  [⟨.RAMB18E1, 8192, 0, 2, 0, none, by decide, by decide, by decide, by decide⟩,
    ⟨.RAMB36E1, 8192, 2, 4, 0, none, by decide, by decide, by decide, by decide⟩,
    ⟨.RAMB36E1, 4096, 6, 8, 0, some 14, by decide, by decide, by decide, by decide⟩,
    ⟨.RAMB36E1, 4096, 6, 8, 4096, some 14, by decide, by decide, by decide, by decide⟩,
    ⟨.RAMB36E1, 4096, 15, 8, 0, some 23, by decide, by decide, by decide, by decide⟩,
    ⟨.RAMB36E1, 4096, 15, 8, 4096, some 23, by decide, by decide, by decide, by decide⟩,
    ⟨.RAMB36E1, 4096, 24, 8, 0, none, by decide, by decide, by decide, by decide⟩,
    ⟨.RAMB36E1, 4096, 24, 8, 4096, none, by decide, by decide, by decide, by decide⟩]

/-- A byte lane of one of `banks` banks. -/
def dramSpec (banks idx : ℕ) : CellSpec :=
  ⟨.RAMB36E1, 4096, idx / banks * 8, 8, idx % banks * 4096, none, by decide, by decide, by decide,
    fun _ h => nomatch h⟩

/-! ## Strings -/

/-- The bit arrays of a cell by string and position, all zero until written. -/
abbrev Strings := ℕ × ℕ → Bool

section ComputeInit

variable (words : List Word) (spec : CellSpec)

def wordAt (a : ℕ) : Word := words.getD (spec.baseAddr + a) 0

def dataStrings : Strings :=
  (List.range spec.depth).foldl
    (fun strings a =>
      let sidx := a / (256 / spec.nbits)
      let pos := a % (256 / spec.nbits) * spec.nbits
      (List.range spec.nbits).foldl
        (fun strings k =>
          Function.update strings (sidx, pos + k)
            ((wordAt words spec a).getLsbD (spec.firstBit + k)))
        strings)
    fun _ => false

def parityStrings (parityBit : ℕ) : Strings :=
  (List.range spec.depth).foldl
    (fun pstrings a =>
      Function.update pstrings (a / 256, a % 256) ((wordAt words spec a).getLsbD parityBit))
    fun _ => false

def hexDigit (v : ℕ) : Char := "0123456789ABCDEF".toList.getD v '0'

/-- 64 digits, the most significant first. -/
def bitsToHex (bits : ℕ → Bool) : List Char :=
  (List.range 64).map fun i =>
    hexDigit ((List.range 4).foldl (fun v j => v <<< 1 ||| (bits (255 - (4 * i + j))).toNat) 0)

/-- A property of a cell, as in `INIT_3F`. -/
def key (name : String) (sidx : ℕ) : List Char :=
  name.toList ++ [hexDigit (sidx / 16), hexDigit (sidx % 16)]

abbrev Property := List Char × List Char

def computeInit : List Property × List Property :=
  ((List.range (nkeys spec.ref)).map fun sidx =>
      (key "INIT_" sidx, bitsToHex fun p => dataStrings words spec (sidx, p)),
    match spec.parityBit with
    | none => []
    | some b =>
      (List.range parityKeys).map fun sidx =>
        (key "INITP_" sidx, bitsToHex fun p => parityStrings words spec b (sidx, p)))

end ComputeInit

/-! ## Layouts -/

inductive Layout
  | irom
  | dramByteLanes
  | dramWords
  deriving DecidableEq, Repr

namespace Layout

def cells : Layout → List CellSpec
  | irom => iromSpecs
  | dramByteLanes => (List.range 64).map (dramSpec 16)
  | dramWords => (List.range 16).map (dramSpec 4)

/-- The number of words. -/
def capacity : Layout → ℕ
  | irom => 8192
  | dramByteLanes => 65536
  | dramWords => 16384

/-- The properties that are set, cell by cell. -/
def initStrings (layout : Layout) (words : List Word) : List (List Property × List Property) :=
  layout.cells.map (computeInit words)

end Layout

/-! ## Reading the strings back -/

def hexValue (c : Char) : ℕ := "0123456789ABCDEF".toList.idxOf c

/-- Bit `p` of `256'h…`. -/
def hexBit (text : List Char) (p : ℕ) : Bool :=
  (hexValue (text.getD (63 - p / 4) '0')).testBit (p % 4)

inductive Plane
  | data
  | parity
  deriving DecidableEq, Repr

/-- A bit of a string of a cell. -/
structure Position where
  cell : ℕ
  plane : Plane
  sidx : ℕ
  pos : ℕ
  deriving DecidableEq, Repr

/-- The strings of one plane of a cell. -/
def planeStrings (strings : List (List Property × List Property)) (cell : ℕ) :
    Plane → List Property
  | .data => (strings.getD cell ([], [])).1
  | .parity => (strings.getD cell ([], [])).2

/-- The bit that stands at a position. -/
def bitAt (strings : List (List Property × List Property)) (q : Position) : Bool :=
  hexBit ((planeStrings strings q.cell q.plane).getD q.sidx ([], [])).2 q.pos

/-- The position is one of the strings. -/
def Produced (strings : List (List Property × List Property)) (q : Position) : Prop :=
  q.sidx < (planeStrings strings q.cell q.plane).length ∧ q.pos < 256

/-- The position of bit `b` of address `a` in a cell, if the cell holds it. -/
def CellSpec.position? (spec : CellSpec) (cell a b : ℕ) : Option Position :=
  if spec.baseAddr ≤ a ∧ a < spec.baseAddr + spec.depth then
    let offset := a - spec.baseAddr
    if spec.firstBit ≤ b ∧ b < spec.firstBit + spec.nbits then
      let slot := offset * spec.nbits + (b - spec.firstBit)
      some ⟨cell, .data, slot / 256, slot % 256⟩
    else if spec.parityBit = some b then some ⟨cell, .parity, offset / 256, offset % 256⟩
    else none
  else none

namespace Layout

/-- The word that the cells hold for an address. -/
def decode (layout : Layout) (strings : List (List Property × List Property)) (a : ℕ) : Word :=
  (List.range 32).foldl
    (fun w b =>
      if layout.cells.zipIdx.any fun c =>
          (c.1.position? c.2 a b).any fun q => bitAt strings q then w ||| 1#32 <<< b
      else w)
    0

end Layout

/-! ## Stores -/

/-- Stores that agree with one function leave its values wherever they go. -/
theorem foldl_update_of_agree {ι κ β : Type*} [DecidableEq κ] (place : ι → κ) (val : ι → β)
    (g : κ → β) (xs : List ι) (h : ∀ x ∈ xs, val x = g (place x)) (init : κ → β) (k : κ) :
    xs.foldl (fun f x => Function.update f (place x) (val x)) init k =
      if k ∈ xs.map place then g k else init k := by
  induction xs generalizing init with
  | nil => rfl
  | cons x xs ih =>
    rw [List.foldl_cons, ih (fun y hy => h y (List.mem_cons_of_mem _ hy)), List.map_cons]
    by_cases hk : k = place x
    · subst hk
      rw [Function.update_self, h x List.mem_cons_self, ite_self, if_pos List.mem_cons_self]
    · have hmem : k ∈ place x :: xs.map place ↔ k ∈ xs.map place := by
        rw [List.mem_cons, or_iff_right hk]
      simp only [hmem, Function.update_of_ne hk]

section Strings

variable (words : List Word) (spec : CellSpec)

theorem CellSpec.nbits_pos : 0 < spec.nbits := by
  have := spec.packed
  by_contra hzero
  rw [Nat.eq_zero_of_not_pos hzero, Nat.mul_zero] at this
  omega

/-- Address `a` of the cell takes the bits from `a * nbits` on, counted over all strings. -/
theorem slot_eq (a : ℕ) :
    a / (256 / spec.nbits) * 256 + a % (256 / spec.nbits) * spec.nbits = a * spec.nbits := by
  have hpacked := spec.packed
  generalize 256 / spec.nbits = q at hpacked ⊢
  calc a / q * 256 + a % q * spec.nbits = (q * (a / q) + a % q) * spec.nbits := by
        rw [← hpacked]; ring
    _ = a * spec.nbits := by rw [Nat.div_add_mod]

/-- The two loops as one, over the pairs of address and bit. -/
theorem dataStrings_eq_foldl :
    dataStrings words spec =
      ((List.range spec.depth).flatMap fun a => (List.range spec.nbits).map (a, ·)).foldl
        (fun strings x => Function.update strings
          (x.1 / (256 / spec.nbits), x.1 % (256 / spec.nbits) * spec.nbits + x.2)
          ((wordAt words spec x.1).getLsbD (spec.firstBit + x.2)))
        fun _ => false := by
  rw [List.foldl_flatMap]
  simp only [List.foldl_map]
  rfl

theorem dataStrings_eq {sidx p : ℕ} (hs : sidx < nkeys spec.ref) (hp : p < 256) :
    dataStrings words spec (sidx, p) =
      (wordAt words spec ((sidx * 256 + p) / spec.nbits)).getLsbD
        (spec.firstBit + (sidx * 256 + p) % spec.nbits) := by
  have hpos := spec.nbits_pos
  have hslot := slot_eq spec
  have hpacked := spec.packed
  rw [dataStrings_eq_foldl, foldl_update_of_agree
    (fun x : ℕ × ℕ => (x.1 / (256 / spec.nbits), x.1 % (256 / spec.nbits) * spec.nbits + x.2))
    (fun x => (wordAt words spec x.1).getLsbD (spec.firstBit + x.2))
    (fun q => (wordAt words spec ((q.1 * 256 + q.2) / spec.nbits)).getLsbD
      (spec.firstBit + (q.1 * 256 + q.2) % spec.nbits))]
  · -- the position is that of the address its slot belongs to
    refine if_pos (List.mem_map.mpr
      ⟨((sidx * 256 + p) / spec.nbits, (sidx * 256 + p) % spec.nbits), ?_, ?_⟩)
    · have hlt : (sidx * 256 + p) / spec.nbits < spec.depth := by
        refine Nat.div_lt_of_lt_mul ?_
        rw [Nat.mul_comm spec.nbits, ← spec.filled]
        omega
      exact List.mem_flatMap.mpr ⟨_, List.mem_range.mpr hlt,
        List.mem_map.mpr ⟨_, List.mem_range.mpr (Nat.mod_lt _ hpos), rfl⟩⟩
    · have hrow := hslot ((sidx * 256 + p) / spec.nbits)
      have hsum := Nat.div_add_mod' (sidx * 256 + p) spec.nbits
      have hfirst : (sidx * 256 + p) / spec.nbits / (256 / spec.nbits) = sidx := by
        rw [Nat.div_div_eq_div_mul, Nat.mul_comm spec.nbits, hpacked]
        omega
      rw [hfirst] at hrow
      refine Prod.ext hfirst ?_
      show (sidx * 256 + p) / spec.nbits % (256 / spec.nbits) * spec.nbits +
        (sidx * 256 + p) % spec.nbits = p
      omega
  · intro x hx
    rcases List.mem_flatMap.mp hx with ⟨a, _, hx⟩
    rcases List.mem_map.mp hx with ⟨k, hk, rfl⟩
    have hk := List.mem_range.mp hk
    have hsum : a / (256 / spec.nbits) * 256 + (a % (256 / spec.nbits) * spec.nbits + k) =
        spec.nbits * a + k := by
      rw [← Nat.add_assoc, hslot, Nat.mul_comm]
    dsimp only
    rw [hsum, Nat.mul_add_div hpos, Nat.div_eq_of_lt hk, Nat.add_zero, Nat.mul_add_mod,
      Nat.mod_eq_of_lt hk]

theorem parityStrings_eq (b : ℕ) (hparity : spec.parityBit = some b) {sidx p : ℕ}
    (hs : sidx < parityKeys) (hp : p < 256) :
    parityStrings words spec b (sidx, p) = (wordAt words spec (sidx * 256 + p)).getLsbD b := by
  have hfilled := spec.parity_filled (by rw [hparity]; rfl)
  rw [parityStrings, foldl_update_of_agree (fun a : ℕ => (a / 256, a % 256))
    (fun a => (wordAt words spec a).getLsbD b)
    (fun q => (wordAt words spec (q.1 * 256 + q.2)).getLsbD b)]
  · refine if_pos (List.mem_map.mpr ⟨sidx * 256 + p, List.mem_range.mpr ?_, ?_⟩)
    · rw [← hfilled]
      omega
    · exact Prod.ext (by dsimp only; omega) (by dsimp only; omega)
  · intro a _
    dsimp only
    rw [Nat.div_add_mod']

/-! ## Hexadecimal text -/

theorem testBit_nibble (b₃ b₂ b₁ b₀ : Bool) :
    let v := (((0 <<< 1 ||| b₃.toNat) <<< 1 ||| b₂.toNat) <<< 1 ||| b₁.toNat) <<< 1 ||| b₀.toNat
    ∀ r < 4, (hexValue (hexDigit v)).testBit r = [b₀, b₁, b₂, b₃].getD r false := by
  revert b₃ b₂ b₁ b₀
  decide

theorem hexBit_bitsToHex (bits : ℕ → Bool) {p : ℕ} (hp : p < 256) :
    hexBit (bitsToHex bits) p = bits p := by
  obtain ⟨n, r, hn, hr, rfl⟩ : ∃ n r, n < 64 ∧ r < 4 ∧ p = n * 4 + r :=
    ⟨p / 4, p % 4, by omega, by omega, by omega⟩
  have hdigit : (bitsToHex bits).getD (63 - n) '0' =
      hexDigit ((((0 <<< 1 ||| (bits (n * 4 + 3)).toNat) <<< 1 ||| (bits (n * 4 + 2)).toNat) <<< 1 |||
        (bits (n * 4 + 1)).toNat) <<< 1 ||| (bits (n * 4)).toNat) := by
    have hindex : ∀ j < 4, 255 - (4 * (63 - n) + j) = n * 4 + (3 - j) := by
      intro j hj
      omega
    rw [bitsToHex, List.getD_eq_getElem?_getD, List.getElem?_map, List.getElem?_range (by omega),
      Option.map_some, Option.getD_some]
    show hexDigit ([0, 1, 2, 3].foldl _ 0) = _
    simp only [List.foldl_cons, List.foldl_nil, hindex 0 (by decide), hindex 1 (by decide),
      hindex 2 (by decide), hindex 3 (by decide)]
    rfl
  have hdiv : (n * 4 + r) / 4 = n := by omega
  have hmod : (n * 4 + r) % 4 = r := by omega
  rw [hexBit, hdiv, hmod, hdigit, testBit_nibble _ _ _ _ r hr]
  interval_cases r <;> rfl

end Strings

end Coe
end Jyd
