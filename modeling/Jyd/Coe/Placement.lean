import Jyd.Coe.InitStrings

/-!
# Placement — every bit of an image has one place in the strings

For each of the three layouts, a bit of an address belongs to exactly one cell, and there to
exactly one position of one string; reading the positions back returns the image.
-/

namespace Jyd
namespace Coe

open Hdl

/-! ## Positions of a cell -/

namespace CellSpec

variable (spec : CellSpec)

theorem position_isSome_iff (cell a b : ℕ) :
    (spec.position? cell a b).isSome = true ↔
      (spec.baseAddr ≤ a ∧ a < spec.baseAddr + spec.depth) ∧
        (spec.firstBit ≤ b ∧ b < spec.firstBit + spec.nbits ∨ spec.parityBit = some b) := by
  rw [position?]
  split_ifs with haddr hdata hparity
  · exact iff_of_true rfl ⟨haddr, Or.inl hdata⟩
  · exact iff_of_true rfl ⟨haddr, Or.inr hparity⟩
  · exact iff_of_false Bool.false_ne_true fun h => h.2.elim hdata hparity
  · exact iff_of_false Bool.false_ne_true fun h => haddr h.1

/-- The number of strings of a plane. -/
def stringCount : Plane → ℕ
  | .data => nkeys spec.ref
  | .parity => if spec.parityBit.isSome then parityKeys else 0

end CellSpec

section Cell

variable {layout : Layout} {i : ℕ} {spec : CellSpec} (hspec : layout.cells[i]? = some spec)

include hspec

theorem planeStrings_initStrings (words : List Word) (plane : Plane) :
    planeStrings (layout.initStrings words) i plane = match plane with
      | .data => (computeInit words spec).1
      | .parity => (computeInit words spec).2 := by
  have hcell : (layout.initStrings words).getD i ([], []) = computeInit words spec := by
    rw [Layout.initStrings, List.getD_eq_getElem?_getD, List.getElem?_map, hspec]
    rfl
  cases plane <;> rw [planeStrings, hcell]

theorem planeStrings_length (words : List Word) (plane : Plane) :
    (planeStrings (layout.initStrings words) i plane).length = spec.stringCount plane := by
  rw [planeStrings_initStrings hspec]
  cases plane with
  | data => exact (List.length_map _).trans List.length_range
  | parity =>
    rw [CellSpec.stringCount, computeInit]
    cases spec.parityBit with
    | none => rfl
    | some b => exact (List.length_map _).trans List.length_range

theorem bitAt_data (words : List Word) {sidx p : ℕ} (hs : sidx < nkeys spec.ref) (hp : p < 256) :
    bitAt (layout.initStrings words) ⟨i, .data, sidx, p⟩ =
      (wordAt words spec ((sidx * 256 + p) / spec.nbits)).getLsbD
        (spec.firstBit + (sidx * 256 + p) % spec.nbits) := by
  rw [bitAt, planeStrings_initStrings hspec, ← dataStrings_eq words spec hs hp]
  dsimp only [computeInit]
  rw [List.getD_eq_getElem?_getD, List.getElem?_map, List.getElem?_range hs, Option.map_some,
    Option.getD_some, hexBit_bitsToHex _ hp]

theorem bitAt_parity (words : List Word) {b : ℕ} (hb : spec.parityBit = some b) {sidx p : ℕ}
    (hs : sidx < parityKeys) (hp : p < 256) :
    bitAt (layout.initStrings words) ⟨i, .parity, sidx, p⟩ =
      (wordAt words spec (sidx * 256 + p)).getLsbD b := by
  rw [bitAt, planeStrings_initStrings hspec, ← parityStrings_eq words spec b hb hs hp]
  dsimp only [computeInit]
  rw [hb, List.getD_eq_getElem?_getD, List.getElem?_map, List.getElem?_range hs, Option.map_some,
    Option.getD_some, hexBit_bitsToHex _ hp]

/-- The position of a bit is in the strings and holds the bit. -/
theorem bitAt_position {a b : ℕ} {q : Position} (h : spec.position? i a b = some q)
    (words : List Word) :
    Produced (layout.initStrings words) q ∧
      bitAt (layout.initStrings words) q = (words.getD a 0).getLsbD b := by
  have hpos := spec.nbits_pos
  have hfilled := spec.filled
  rw [CellSpec.position?] at h
  split_ifs at h with haddr hdata hparity
  · cases h
    obtain ⟨offset, rfl⟩ := Nat.exists_eq_add_of_le haddr.1
    obtain ⟨k, rfl⟩ := Nat.exists_eq_add_of_le hdata.1
    have hk : k < spec.nbits := by omega
    have hslot : offset * spec.nbits + k < nkeys spec.ref * 256 := by
      have hrow : (offset + 1) * spec.nbits ≤ spec.depth * spec.nbits :=
        Nat.mul_le_mul_right _ (by omega)
      rw [Nat.add_mul] at hrow
      omega
    have hs : (offset * spec.nbits + k) / 256 < nkeys spec.ref := by omega
    simp only [Nat.add_sub_cancel_left]
    refine ⟨⟨?_, Nat.mod_lt _ (by decide)⟩, ?_⟩
    · rw [planeStrings_length hspec]
      exact hs
    · rw [bitAt_data hspec words hs (Nat.mod_lt _ (by decide)), Nat.div_add_mod',
        Nat.mul_comm offset, Nat.mul_add_div hpos, Nat.div_eq_of_lt hk, Nat.mul_add_mod,
        Nat.mod_eq_of_lt hk]
      rfl
  · cases h
    obtain ⟨offset, rfl⟩ := Nat.exists_eq_add_of_le haddr.1
    have hdepth := spec.parity_filled (by rw [hparity]; rfl)
    have hs : offset / 256 < parityKeys := by omega
    simp only [Nat.add_sub_cancel_left]
    refine ⟨⟨?_, Nat.mod_lt _ (by decide)⟩, ?_⟩
    · rw [planeStrings_length hspec, CellSpec.stringCount, hparity]
      exact hs
    · rw [bitAt_parity hspec words hparity hs (Nat.mod_lt _ (by decide)), Nat.div_add_mod']
      rfl

end Cell

/-- Every position of the strings is the position of some bit. -/
theorem exists_source {layout : Layout} {words : List Word} {q : Position}
    (h : Produced (layout.initStrings words) q) :
    ∃ spec a b, layout.cells[q.cell]? = some spec ∧ spec.position? q.cell a b = some q := by
  rcases q with ⟨i, plane, sidx, p⟩
  rcases hspec : layout.cells[i]? with _ | spec
  · have hnone : (layout.initStrings words).getD i ([], []) = ([], []) := by
      rw [Layout.initStrings, List.getD_eq_getElem?_getD, List.getElem?_map, hspec]
      rfl
    have hlt := h.1
    cases plane <;> rw [planeStrings, hnone] at hlt <;> exact absurd hlt (Nat.not_lt_zero _)
  · have hp : p < 256 := h.2
    have hs : sidx < spec.stringCount plane := by
      have hlt := h.1
      rwa [planeStrings_length hspec] at hlt
    refine ⟨spec, ?_⟩
    cases plane with
    | data =>
      have hs : sidx < nkeys spec.ref := hs
      have hfilled := spec.filled
      have hlt : (sidx * 256 + p) / spec.nbits < spec.depth := by
        refine Nat.div_lt_of_lt_mul ?_
        rw [Nat.mul_comm spec.nbits, ← hfilled]
        omega
      have hmod := Nat.mod_lt (sidx * 256 + p) spec.nbits_pos
      refine ⟨spec.baseAddr + (sidx * 256 + p) / spec.nbits,
        spec.firstBit + (sidx * 256 + p) % spec.nbits, rfl, ?_⟩
      rw [CellSpec.position?, if_pos ⟨Nat.le_add_right _ _, Nat.add_lt_add_left hlt _⟩]
      dsimp only
      rw [if_pos ⟨Nat.le_add_right _ _, Nat.add_lt_add_left hmod _⟩, Nat.add_sub_cancel_left,
        Nat.add_sub_cancel_left, Nat.div_add_mod']
      congr 2 <;> omega
    | parity =>
      rw [CellSpec.stringCount] at hs
      rcases hparity : spec.parityBit with _ | b
      · rw [hparity] at hs
        exact absurd hs (Nat.not_lt_zero _)
      · rw [hparity] at hs
        have hs : sidx < parityKeys := hs
        have hdepth := spec.parity_filled (by rw [hparity]; rfl)
        have hapart := spec.parity_apart b (by rw [hparity]; rfl)
        refine ⟨spec.baseAddr + (sidx * 256 + p), b, rfl, ?_⟩
        rw [CellSpec.position?, if_pos ⟨by omega, by omega⟩]
        dsimp only
        rw [if_neg (by omega), if_pos hparity, Nat.add_sub_cancel_left]
        congr 2 <;> omega

/-! ## Owners -/

namespace Layout

/-- The cell that holds bit `b` of address `a`. -/
def owner : Layout → ℕ → ℕ → ℕ
  | irom, a, b =>
    if b < 2 then 0
    else if b < 6 then 1
    else if b < 15 then 2 + a / 4096
    else if b < 24 then 4 + a / 4096
    else 6 + a / 4096
  | dramByteLanes, a, b => b / 8 * 16 + a / 4096
  | dramWords, a, b => b / 8 * 4 + a / 4096

variable {layout : Layout} {a b : ℕ} (ha : a < layout.capacity) (hb : b < 32)

include ha hb

theorem owner_lt : layout.owner a b < layout.cells.length := by
  cases layout with
  | irom =>
    have ha : a < 8192 := ha
    show (if b < 2 then _ else _) < 8
    split_ifs <;> omega
  | dramByteLanes =>
    have ha : a < 65536 := ha
    show b / 8 * 16 + a / 4096 < _
    rw [cells, List.length_map, List.length_range]
    omega
  | dramWords =>
    have ha : a < 16384 := ha
    show b / 8 * 4 + a / 4096 < _
    rw [cells, List.length_map, List.length_range]
    omega

/-- A bit is held by its owner and by no other cell. -/
theorem holds_iff {i : ℕ} {spec : CellSpec} (hspec : layout.cells[i]? = some spec) :
    (spec.position? i a b).isSome = true ↔ i = layout.owner a b := by
  rw [CellSpec.position_isSome_iff]
  cases layout with
  | irom =>
    have ha : a < 8192 := ha
    have hi : i < 8 := (List.getElem?_eq_some_iff.mp hspec).1
    have hnone : ¬(none : Option ℕ) = some b := nofun
    have howner : b < 2 ∧ irom.owner a b = 0 ∨ 2 ≤ b ∧ b < 6 ∧ irom.owner a b = 1 ∨
        6 ≤ b ∧ b < 15 ∧ irom.owner a b = 2 + a / 4096 ∨
        15 ≤ b ∧ b < 24 ∧ irom.owner a b = 4 + a / 4096 ∨
        24 ≤ b ∧ irom.owner a b = 6 + a / 4096 := by
      rw [owner]
      split_ifs <;> omega
    generalize irom.owner a b = o at howner ⊢
    interval_cases i <;> cases hspec <;> simp only [Option.some_inj, hnone, or_false] <;> omega
  | dramByteLanes | dramWords =>
    rw [capacity] at ha
    rw [cells, List.getElem?_map] at hspec
    rcases Option.map_eq_some_iff.mp hspec with ⟨j, hj, rfl⟩
    obtain ⟨hi, rfl⟩ := List.getElem?_eq_some_iff.mp hj
    rw [List.length_range] at hi
    simp only [dramSpec, List.getElem_range, reduceCtorEq, or_false, owner]
    omega

end Layout

/-! ## Images -/

section Image

variable {layout : Layout} {a b : ℕ} (ha : a < layout.capacity) (hb : b < 32)

include ha hb

theorem exists_position :
    ∃ spec q, layout.cells[layout.owner a b]? = some spec ∧
      spec.position? (layout.owner a b) a b = some q := by
  have hlt := Layout.owner_lt ha hb
  have hspec := List.getElem?_eq_getElem hlt
  rcases Option.isSome_iff_exists.mp ((Layout.holds_iff ha hb hspec).mpr rfl) with ⟨q, hq⟩
  exact ⟨_, q, hspec, hq⟩

/-- A position that always shows bit `b` of address `a` is the position of that bit. -/
theorem position_of_shows {q : Position}
    (h : ∀ words : List Word, words.length ≤ layout.capacity →
      Produced (layout.initStrings words) q ∧
        bitAt (layout.initStrings words) q = (words.getD a 0).getLsbD b) :
    ∃ spec, layout.cells[q.cell]? = some spec ∧ spec.position? q.cell a b = some q := by
  -- an image with this one bit set
  let words : List Word := List.replicate a 0 ++ [1#32 <<< b]
  have hget : ∀ a' b', (words.getD a' 0).getLsbD b' = decide (a' = a ∧ b' = b) := by
    intro a' b'
    rw [List.getD_eq_getElem?_getD]
    rcases Nat.lt_trichotomy a' a with hlt | rfl | hgt
    · rw [List.getElem?_append_left (by rwa [List.length_replicate]), List.getElem?_replicate,
        if_pos hlt, decide_eq_false (by omega)]
      exact BitVec.getLsbD_zero
    · rw [List.getElem?_append_right (by rw [List.length_replicate]), List.length_replicate,
        Nat.sub_self]
      exact (getLsbD_one_shiftLeft hb b').trans (decide_eq_decide.mpr (by simp))
    · have hlen : words.length ≤ a' := by
        rw [List.length_append, List.length_replicate, List.length_singleton]
        omega
      rw [List.getElem?_eq_none hlen, decide_eq_false (by omega)]
      exact BitVec.getLsbD_zero
  have hlen : words.length ≤ layout.capacity := by
    rw [List.length_append, List.length_replicate, List.length_singleton]
    omega
  rcases h words hlen with ⟨hproduced, hbit⟩
  rcases exists_source hproduced with ⟨spec, a', b', hspec, hq⟩
  have hshown := (bitAt_position hspec hq words).2
  rw [hbit, hget, hget, decide_eq_true ⟨rfl, rfl⟩] at hshown
  obtain ⟨rfl, rfl⟩ := of_decide_eq_true hshown.symm
  exact ⟨spec, hspec, hq⟩

theorem exists_unique_position :
    ∃! q : Position, ∀ words : List Word, words.length ≤ layout.capacity →
      Produced (layout.initStrings words) q ∧
        bitAt (layout.initStrings words) q = (words.getD a 0).getLsbD b := by
  rcases exists_position ha hb with ⟨spec, q, hspec, hq⟩
  refine ⟨q, fun words _ => bitAt_position hspec hq words, fun q' hq' => ?_⟩
  rcases position_of_shows ha hb hq' with ⟨spec', hspec', hpos⟩
  have hcell := (Layout.holds_iff ha hb hspec').mp (by rw [hpos]; rfl)
  rw [hcell] at hspec' hpos
  rw [hspec] at hspec'
  cases hspec'
  rw [hq] at hpos
  exact (Option.some.inj hpos).symm

omit ha in
theorem decode_getLsbD (strings : List (List Property × List Property)) (a : ℕ) :
    (layout.decode strings a).getLsbD b =
      layout.cells.zipIdx.any fun c =>
        (c.1.position? c.2 a b).any fun q => bitAt strings q :=
  getLsbD_foldl_bits _ hb

theorem decode_initStrings (words : List Word) :
    (layout.decode (layout.initStrings words) a).getLsbD b = (words.getD a 0).getLsbD b := by
  rw [decode_getLsbD hb, Bool.eq_iff_iff, List.any_eq_true]
  constructor
  · rintro ⟨⟨spec, i⟩, hmem, hany⟩
    have hspec : layout.cells[i]? = some spec := List.mk_mem_zipIdx_iff_getElem?.mp hmem
    rcases hq : spec.position? i a b with _ | q
    · exact absurd hany (by rw [hq]; exact Bool.false_ne_true)
    · have hbit : bitAt (layout.initStrings words) q = true := by
        rw [hq] at hany
        exact hany
      rwa [(bitAt_position hspec hq words).2] at hbit
  · intro hbit
    rcases exists_position ha hb with ⟨spec, q, hspec, hq⟩
    refine ⟨(spec, layout.owner a b), List.mk_mem_zipIdx_iff_getElem?.mpr hspec, ?_⟩
    rw [hq, Option.any_some, (bitAt_position hspec hq words).2, hbit]

end Image

theorem decode_image {layout : Layout} {words : List Word} (h : words.length ≤ layout.capacity) :
    (List.range layout.capacity).map (layout.decode (layout.initStrings words)) =
      words ++ List.replicate (layout.capacity - words.length) 0 := by
  apply List.ext_getElem?
  intro a
  by_cases ha : a < layout.capacity
  · have hword : layout.decode (layout.initStrings words) a = words.getD a 0 :=
      BitVec.eq_of_getLsbD_eq fun b hb => decode_initStrings ha hb words
    rw [List.getElem?_map, List.getElem?_range ha, Option.map_some, hword,
      List.getD_eq_getElem?_getD]
    by_cases hin : a < words.length
    · rw [List.getElem?_append_left hin, List.getElem?_eq_getElem hin, Option.getD_some]
    · rw [List.getElem?_append_right (Nat.not_lt.mp hin), List.getElem?_replicate,
        if_pos (by omega), List.getElem?_eq_none (Nat.not_lt.mp hin), Option.getD_none]
  · have hshort : (words ++ List.replicate (layout.capacity - words.length) (0 : Word)).length ≤ a := by
      rw [List.length_append, List.length_replicate]
      omega
    rw [List.getElem?_eq_none hshort, List.getElem?_eq_none]
    rw [List.length_map, List.length_range]
    omega

/-! ## Numbers of strings -/

theorem key_injective (name : String) {n m : ℕ} (hn : n < 256) (hm : m < 256)
    (h : key name n = key name m) : n = m := by
  have hdigit : ∀ v < 16, ∀ u < 16, hexDigit v = hexDigit u → v = u := by decide
  have hdigits := List.append_cancel_left h
  simp only [List.cons.injEq, and_true] at hdigits
  have hhigh := hdigit (n / 16) (by omega) (m / 16) (by omega) hdigits.1
  have hlow := hdigit (n % 16) (by omega) (m % 16) (by omega) hdigits.2
  omega

theorem keys_nodup (name : String) {count : ℕ} (hcount : count ≤ 256) (text : ℕ → List Char) :
    (((List.range count).map fun sidx => (key name sidx, text sidx)).map Prod.fst).Nodup := by
  rw [List.map_map]
  refine List.Nodup.map_on (fun n hn m hm h => ?_) List.nodup_range
  have hn := List.mem_range.mp hn
  have hm := List.mem_range.mp hm
  exact key_injective name (by omega) (by omega) h

/-- Distinct properties, as many as the primitive exposes. -/
theorem computeInit_count (words : List Word) (spec : CellSpec) :
    (((computeInit words spec).1.map Prod.fst).Nodup ∧
        (computeInit words spec).1.length = nkeys spec.ref) ∧
      ((computeInit words spec).2.map Prod.fst).Nodup ∧
        (computeInit words spec).2.length = if spec.parityBit.isSome then parityKeys else 0 := by
  have hkeys : nkeys spec.ref ≤ 256 := by cases spec.ref <;> decide
  refine ⟨⟨keys_nodup _ hkeys _, (List.length_map _).trans List.length_range⟩, ?_⟩
  rw [computeInit]
  cases spec.parityBit with
  | none => exact ⟨List.nodup_nil, rfl⟩
  | some b => exact ⟨keys_nodup _ (by decide) _, (List.length_map _).trans List.length_range⟩

/-- In each layout every bit of every address has exactly one position in the strings; an image
that fits is read back from them, with zeros behind it; and every cell gets as many strings as
its primitive exposes. -/
theorem image_placed (layout : Layout) (words : List Word) (h : words.length ≤ layout.capacity) :
    (∀ a < layout.capacity, ∀ b < 32, ∃! q : Position, ∀ words : List Word,
        words.length ≤ layout.capacity →
          Produced (layout.initStrings words) q ∧
            bitAt (layout.initStrings words) q = (words.getD a 0).getLsbD b) ∧
      (List.range layout.capacity).map (layout.decode (layout.initStrings words)) =
        words ++ List.replicate (layout.capacity - words.length) 0 ∧
      ∀ spec ∈ layout.cells,
        (((computeInit words spec).1.map Prod.fst).Nodup ∧
            (computeInit words spec).1.length = nkeys spec.ref) ∧
          ((computeInit words spec).2.map Prod.fst).Nodup ∧
            (computeInit words spec).2.length = if spec.parityBit.isSome then parityKeys else 0 :=
  ⟨fun _ ha _ hb => exists_unique_position ha hb, decode_image h,
    fun spec _ => computeInit_count words spec⟩

/-- An image of two words. -/
theorem image_placed_two :
    ([0xdeadbeef, 0x12345678] : List Word).length ≤ Layout.irom.capacity ∧
      (List.range Layout.irom.capacity).map
          (Layout.irom.decode (Layout.irom.initStrings [0xdeadbeef, 0x12345678])) =
        [0xdeadbeef, 0x12345678] ++ List.replicate 8190 0 :=
  ⟨by decide, (image_placed .irom [0xdeadbeef, 0x12345678] (by decide)).2.1⟩

end Coe
end Jyd
