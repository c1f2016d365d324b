import Jyd.Hdl.Signal

/-!
# ByteMemory — a byte-addressed memory kept in words

A memory of words with byte enables represents a little-endian byte memory on a
region of addresses.  An aligned store through the byte enables is a store to the
bytes, and the bytes of a cell are the bytes at the addresses of its word.
-/

namespace Jyd
namespace Hdl

/-- The contents of a byte-addressed memory. -/
abbrev Bytes := Word → BitVec 8

namespace Bytes

/-- Write the low `n` bytes of a word from address `a` on. -/
def store (B : Bytes) (a : Word) (n : ℕ) (data : Word) : Bytes := fun x =>
  if (x - a).toNat < n then byteOf data (x - a).toNat else B x

/-- The word whose low byte is at address `a`. -/
def word (B : Bytes) (a : Word) : Word := ofBytes fun k => B (a + BitVec.ofNat 32 k)

end Bytes

/-! ## Cells -/

/-- Where a memory of words keeps the addresses of a region. -/
structure WordMap where
  region : Word → Prop
  cell : Word → ℕ
  same_word : ∀ {a b}, region a → a.toNat / 4 = b.toNat / 4 → region b ∧ cell b = cell a
  same_cell : ∀ {a b}, region a → region b → cell a = cell b → a.toNat / 4 = b.toNat / 4

namespace WordMap

variable (g : WordMap)

/-- The words in the cells of the region are made of the bytes. -/
def Represents (mem : ℕ → Word) (B : Bytes) : Prop :=
  ∀ a, g.region a → byteOf (mem (g.cell a)) (a.toNat % 4) = B a

variable {g} {mem : ℕ → Word} {B : Bytes} {a : Word}

theorem toNat_add_ofNat {k : ℕ} (hk : a.toNat % 4 + k < 4) :
    (a + BitVec.ofNat 32 k).toNat = a.toNat + k := by
  have ha := a.isLt
  rw [BitVec.toNat_add, BitVec.toNat_ofNat, Nat.mod_eq_of_lt (by omega : k < 2 ^ 32)]
  exact Nat.mod_eq_of_lt (by omega)

/-- The bytes of a cell above the one of its address. -/
theorem Represents.byteOf_add (h : g.Represents mem B) (ha : g.region a) {k : ℕ}
    (hk : a.toNat % 4 + k < 4) :
    byteOf (mem (g.cell a)) (a.toNat % 4 + k) = B (a + BitVec.ofNat 32 k) := by
  have hadd := toNat_add_ofNat hk
  have hsame := g.same_word (b := a + BitVec.ofNat 32 k) ha (by omega)
  have hbyte := h _ hsame.1
  rwa [hsame.2, hadd, show (a.toNat + k) % 4 = a.toNat % 4 + k by omega] at hbyte

/-- Whether a byte of the word at `a` is among the `n` bytes from `a` on. -/
theorem sub_lt_iff {x : Word} {n : ℕ} (hn : a.toNat % 4 + n ≤ 4)
    (hword : x.toNat / 4 = a.toNat / 4) :
    (x - a).toNat < n ↔ a.toNat % 4 ≤ x.toNat % 4 ∧ x.toNat % 4 < a.toNat % 4 + n := by
  have hx := x.isLt
  have ha := a.isLt
  rw [BitVec.toNat_sub]
  omega

theorem not_sub_lt {x : Word} {n : ℕ} (hn : a.toNat % 4 + n ≤ 4)
    (hword : x.toNat / 4 ≠ a.toNat / 4) : ¬ (x - a).toNat < n := by
  have hx := x.isLt
  have ha := a.isLt
  rw [BitVec.toNat_sub]
  omega

/-- A store through the byte enables is a store to the bytes, if it stays in its word, the
enables select the bytes of the access and the write data are aligned to them. -/
theorem Represents.store (h : g.Represents mem B) (ha : g.region a) {n : ℕ} {data wdata : Word}
    {wmask : BitVec 4} (hn : a.toNat % 4 + n ≤ 4)
    (hmask : ∀ k < 4, wmask.getLsbD k = decide (a.toNat % 4 ≤ k ∧ k < a.toNat % 4 + n))
    (hdata : ∀ k < n, byteOf wdata (a.toNat % 4 + k) = byteOf data k) :
    g.Represents (Function.update mem (g.cell a) (writeMasked wmask wdata (mem (g.cell a))))
      (B.store a n data) := by
  intro x hx
  by_cases hword : x.toNat / 4 = a.toNat / 4
  · have hcell : g.cell x = g.cell a := (g.same_word ha hword.symm).2
    have hiff := sub_lt_iff hn hword
    rw [hcell, Function.update_self, byteOf_writeMasked _ _ _ (Nat.mod_lt _ (by decide)),
      hmask _ (Nat.mod_lt _ (by decide)), Bytes.store]
    by_cases hlt : (x - a).toNat < n
    · have hrange := hiff.mp hlt
      have hoff : x.toNat % 4 = a.toNat % 4 + (x - a).toNat := by
        have hxl := x.isLt
        have hal := a.isLt
        rw [BitVec.toNat_sub]
        omega
      rw [if_pos (by simpa using hrange), if_pos hlt, hoff, hdata _ hlt]
    · have hrange := mt hiff.mpr hlt
      rw [if_neg (by simpa using hrange), if_neg hlt, ← hcell]
      exact h x hx
  · have hcell : g.cell x ≠ g.cell a := fun hc => hword (g.same_cell hx ha hc)
    rw [Function.update_of_ne hcell, Bytes.store, if_neg (not_sub_lt hn hword)]
    exact h x hx

end WordMap

end Hdl
end Jyd
