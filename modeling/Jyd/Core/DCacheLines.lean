import Jyd.Hdl.CacheLines
import Jyd.Core.DCache

/-!
# DCacheLines — the two copies of the data cache as lines

The block memory and the asynchronous shadow are read through the same tags.  Each
is seen as one array of lines over the ten-bit index, and a clock edge as the
update of at most one line.
-/

namespace Jyd
namespace Core
namespace DCache

open Hdl

variable {r : Regs} {i : In}

def lineValid (r : Regs) (k : BitVec 10) : Bool := (tagEntry r k).getLsbD 0
def lineTag (r : Regs) (k : BitVec 10) : BitVec 7 := (tagEntry r k).extractLsb' 1 7
def blockData (r : Regs) (k : BitVec 10) : Word := r.dataMem (bankOf k) (lineOf k)

/-- The lines that a copy of the data makes under the common tags. -/
def lines (r : Regs) (data : BitVec 10 → Word) (k : BitVec 10) : CacheLine (BitVec 7) Word :=
  ⟨lineValid r k, lineTag r k, data k⟩

theorem hit_iff {k : BitVec 10} {tag : BitVec 7} :
    hit r k tag = true ↔ lineValid r k = true ∧ lineTag r k = tag := by
  simp [hit, lineValid, lineTag]

/-! ## Banks and lines -/

theorem index_ext {k w : BitVec 10} (hb : bankOf k = bankOf w) (hl : lineOf k = lineOf w) : k = w := by
  apply BitVec.eq_of_getLsbD_eq
  intro n hn
  by_cases h9 : n = 9
  · subst h9
    exact hb
  · have hbit := congrArg (fun x => x.getLsbD n) hl
    have hlt : n < 9 := by omega
    simpa only [lineOf, BitVec.getLsbD_extractLsb', hlt, decide_true, Bool.true_and,
      Nat.zero_add] using hbit

theorem update_bank {α : Type} (f : Bank → Line → α) (w k : BitVec 10) (v : α) :
    Function.update f (bankOf w) (Function.update (f (bankOf w)) (lineOf w) v) (bankOf k) (lineOf k) =
      if k = w then v else f (bankOf k) (lineOf k) := by
  by_cases hk : k = w
  · simp [hk]
  · rw [if_neg hk]
    by_cases hb : bankOf k = bankOf w
    · have hl : lineOf k ≠ lineOf w := fun hl => hk (index_ext hb hl)
      rw [hb, Function.update_self, Function.update_of_ne hl]
    · rw [Function.update_of_ne hb]

/-! ## One clock edge -/

theorem tagEntry_next (k : BitVec 10) :
    tagEntry (next r i) k =
      if writes i = true ∧ k = writeIndex i then tagWriteData i else tagEntry r k := by
  cases hw : writes i with
  | false => simp [tagEntry, next, hw]
  | true =>
    simp only [tagEntry, next, hw, if_true, true_and]
    exact update_bank _ _ _ _

theorem hit_next (k : BitVec 10) (tag : BitVec 7) :
    hit (next r i) k tag =
      if writes i = true ∧ k = writeIndex i then
        (tagWriteData i).getLsbD 0 && (tagWriteData i).extractLsb' 1 7 == tag
      else hit r k tag := by
  rw [hit, tagEntry_next]
  split <;> rfl

theorem blockData_next (k : BitVec 10) :
    blockData (next r i) k =
      if writes i = true ∧ k = writeIndex i then
        writeMasked (dataWriteMask i) (dataWriteData i) (blockData r k)
      else blockData r k := by
  cases hw : writes i with
  | false => simp [blockData, next, hw]
  | true =>
    simp only [blockData, next, hw, if_true, true_and]
    rw [update_bank]
    by_cases hk : k = writeIndex i
    · rw [if_pos hk, if_pos hk, hk]
    · rw [if_neg hk, if_neg hk]

theorem lateData_next (k : BitVec 10) :
    lateReadData (next r i) k =
      if writes i = true ∧ k = writeIndex i then
        writeMasked (dataWriteMask i) (dataWriteData i) (lateReadData r k)
      else lateReadData r k := by
  cases hw : writes i with
  | false => simp [lateReadData, next, hw]
  | true =>
    have hbyte : ∀ byte : Fin 4, (next r i).lateDataMem (bankOf k) byte (lineOf k) =
        if k = writeIndex i ∧ (dataWriteMask i).getLsbD byte = true then
          byteOf (dataWriteData i) byte
        else r.lateDataMem (bankOf k) byte (lineOf k) := by
      intro byte
      simp only [next, hw, if_true]
      by_cases hb : bankOf k = bankOf (writeIndex i)
      · rw [hb, Function.update_self]
        by_cases hl : lineOf k = lineOf (writeIndex i)
        · have hk : k = writeIndex i := index_ext hb hl
          cases (dataWriteMask i).getLsbD byte <;> simp [hk]
        · have hk : k ≠ writeIndex i := fun hk => hl (by rw [hk])
          cases (dataWriteMask i).getLsbD byte <;> simp [hk, Function.update_of_ne hl]
      · have hk : k ≠ writeIndex i := fun hk => hb (by rw [hk])
        rw [Function.update_of_ne hb]
        simp [hk]
    have hread : ∀ r' : Regs, lateReadData r' k =
        ofBytes (fun n => if h : n < 4 then r'.lateDataMem (bankOf k) ⟨n, h⟩ (lineOf k) else 0) :=
      fun _ => rfl
    apply eq_of_byteOf
    intro n hn
    rw [hread (next r i), byteOf_ofBytes _ hn, dif_pos hn, hbyte ⟨n, hn⟩]
    simp only [true_and]
    by_cases hk : k = writeIndex i
    · rw [if_pos hk, byteOf_writeMasked _ _ _ hn, hread r, byteOf_ofBytes _ hn, dif_pos hn]
      simp only [hk, true_and]
    · rw [if_neg hk, hread r, byteOf_ofBytes _ hn, dif_pos hn]
      simp only [hk, false_and, if_false]

theorem writeMasked_full (new old : Word) : writeMasked 0b1111#4 new old = new := by
  apply eq_of_byteOf
  intro n hn
  rw [byteOf_writeMasked _ _ _ hn]
  rcases (by omega : n = 0 ∨ n = 1 ∨ n = 2 ∨ n = 3) with rfl | rfl | rfl | rfl <;> rfl

/-! ## One line at a time -/

/-- `data'` is the copy `data` after the write of this edge. -/
def Written (i : In) (data data' : BitVec 10 → Word) : Prop :=
  ∀ k, data' k =
    if writes i = true ∧ k = writeIndex i then
      writeMasked (dataWriteMask i) (dataWriteData i) (data k)
    else data k

variable {data data' : BitVec 10 → Word}

theorem lines_next (h : Written i data data') :
    lines (next r i) data' =
      if writes i then
        Function.update (lines r data) (writeIndex i)
          ⟨(tagWriteData i).getLsbD 0, (tagWriteData i).extractLsb' 1 7,
            writeMasked (dataWriteMask i) (dataWriteData i) (data (writeIndex i))⟩
      else lines r data := by
  funext k
  cases hw : writes i with
  | false => simp [lines, lineValid, lineTag, tagEntry_next, h k, hw]
  | true =>
    by_cases hk : k = writeIndex i
    · subst hk
      simp [lines, lineValid, lineTag, tagEntry_next, h (writeIndex i), hw]
    · simp [lines, lineValid, lineTag, tagEntry_next, h k, hw, hk]

theorem tagWord_valid (tag : BitVec 7) (v : Bool) : (tag ++ BitVec.ofBool v).getLsbD 0 = v := by
  rw [BitVec.getLsbD_append]
  cases v <;> rfl

theorem tagWord_tag (tag : BitVec 7) (v : Bool) : (tag ++ BitVec.ofBool v).extractLsb' 1 7 = tag := by
  apply BitVec.eq_of_getLsbD_eq
  intro n hn
  simp only [BitVec.getLsbD_extractLsb', BitVec.getLsbD_append, hn, decide_true, Bool.true_and]
  have hge : ¬ 1 + n < 1 := by omega
  rw [if_neg hge, Nat.add_sub_cancel_left]

theorem lines_of_no_write (h : Written i data data') (hs : i.storeUpdate = false)
    (hu : i.update = false) : lines (next r i) data' = lines r data := by
  have hw : writes i = false := by simp [writes, hs, hu]
  simp [lines_next h, hw]

theorem lines_of_store (h : Written i data data') (hs : i.storeUpdate = true) :
    lines (next r i) data' =
      Function.update (lines r data) i.queryIndex
        ⟨i.storeFull, i.queryTag,
          writeMasked i.storeMask i.storeData (data i.queryIndex)⟩ := by
  have hw : writes i = true := by simp [writes, hs]
  rw [lines_next h, if_pos hw]
  simp only [writeIndex, tagWriteData, dataWriteMask, dataWriteData, hs, if_true, tagWord_valid,
    tagWord_tag]

/-- A full-word update makes its line valid with exactly that word. -/
theorem lines_of_update (h : Written i data data') (hs : i.storeUpdate = false)
    (hu : i.update = true) (hvalid : i.updateValid = true) (hmask : i.updateMask = 0b1111#4) :
    lines (next r i) data' =
      Function.update (lines r data) (indexOf i.updateAddr)
        ⟨true, tagOf i.updateAddr, i.updateData⟩ := by
  have hw : writes i = true := by simp [writes, hu]
  rw [lines_next h, if_pos hw]
  simp only [writeIndex, tagWriteData, dataWriteMask, dataWriteData, hs, hu, hvalid, hmask,
    Bool.false_eq_true, if_false, if_true, tagWord_valid, tagWord_tag, writeMasked_full]

/-! ## Line addresses -/

/-- Every valid line sits in the bank that its tag names. -/
def Banked (r : Regs) : Prop :=
  ∀ k, lineValid r k = true → (lineTag r k).getLsbD 0 = k.getLsbD 9

theorem bank_of_addr (a : Word) : (tagOf a).getLsbD 0 = (indexOf a).getLsbD 9 := by
  simp only [tagOf, indexOf, BitVec.getLsbD_extractLsb']
  rfl

theorem Banked.next (h : Banked r) {a : Word} (hindex : i.queryIndex = indexOf a)
    (htag : i.queryTag = tagOf a) : Banked (next r i) := by
  intro k hv
  simp only [lineValid, lineTag, tagEntry_next] at hv ⊢
  split at hv
  · rename_i hk
    rw [if_pos hk, hk.2]
    cases hs : i.storeUpdate with
    | true =>
      simp only [tagWriteData, writeIndex, hs, if_true, tagWord_tag, hindex, htag]
      exact bank_of_addr a
    | false =>
      simp only [tagWriteData, writeIndex, hs, Bool.false_eq_true, if_false, tagWord_tag]
      exact bank_of_addr _
  · rename_i hk
    rw [if_neg hk]
    exact h k hv

/-- The address in the RAM window that line `k` holds under `tag`. -/
def lineAddr (k : BitVec 10) (tag : BitVec 7) : Word :=
  0x801#12 ++ 0#2 ++ tag.extractLsb' 1 6 ++ k ++ 0#2

theorem indexOf_lineAddr (k : BitVec 10) (tag : BitVec 7) : indexOf (lineAddr k tag) = k := by
  apply BitVec.eq_of_getLsbD_eq
  intro n hn
  simp only [indexOf, lineAddr, BitVec.getLsbD_extractLsb', BitVec.getLsbD_append]
  grind

theorem tagOf_lineAddr {k : BitVec 10} {tag : BitVec 7} (h : tag.getLsbD 0 = k.getLsbD 9) :
    tagOf (lineAddr k tag) = tag := by
  apply BitVec.eq_of_getLsbD_eq
  intro n hn
  simp only [tagOf, lineAddr, BitVec.getLsbD_extractLsb', BitVec.getLsbD_append]
  grind

end DCache
end Core
end Jyd
