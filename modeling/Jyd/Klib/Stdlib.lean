import Jyd.Hdl.Signal
import Mathlib.Data.List.Basic

/-!
# Stdlib — the allocator of klib

`kmalloc` moves a pointer through the heap and never takes a block back.  The pointer is a
static variable that the first call sets to the beginning of the heap; it advances by exactly
the requested size, whatever that is.  A failed assertion is `none`.
-/

namespace Jyd
namespace Klib

open Hdl

/-! ## The allocator -/

/-- `Area`, with its two pointers. -/
structure Area where
  start : Word
  stop : Word
  deriving DecidableEq, Repr

structure Block where
  start : Word
  size : Word
  deriving DecidableEq, Repr

/-- The block and the static pointer after the call. -/
def kmalloc (heap : Area) (addr size : Word) : Option (Block × Word) :=
  let addr := if addr = 0 then heap.start else addr
  if addr + size < heap.stop then some (⟨addr, size⟩, addr + size) else none

/-- One call after the other. -/
def kmallocs (heap : Area) : Word → List Word → Option (List Block)
  | _, [] => some []
  | addr, size :: sizes =>
    match kmalloc heap addr size with
    | none => none
    | some (block, addr) => (kmallocs heap addr sizes).map (block :: ·)

/-! ## Blocks side by side -/

/-- Intervals of given lengths, one behind the other. -/
def placed : ℕ → List ℕ → List (ℕ × ℕ)
  | _, [] => []
  | base, size :: sizes => (base, size) :: placed (base + size) sizes

theorem bounds_of_mem_placed {base : ℕ} {sizes : List ℕ} {p : ℕ × ℕ} (h : p ∈ placed base sizes) :
    base ≤ p.1 ∧ p.1 + p.2 ≤ base + sizes.sum := by
  induction sizes generalizing base with
  | nil => exact absurd h List.not_mem_nil
  | cons size sizes ih =>
    rw [List.sum_cons]
    rcases List.mem_cons.mp h with rfl | h
    · exact ⟨le_rfl, by omega⟩
    · have hrest := ih h
      omega

theorem pairwise_placed (base : ℕ) (sizes : List ℕ) :
    (placed base sizes).Pairwise fun p q => p.1 + p.2 ≤ q.1 := by
  induction sizes generalizing base with
  | nil => exact List.Pairwise.nil
  | cons size sizes ih =>
    refine List.pairwise_cons.mpr ⟨?_, ih (base + size)⟩
    intro q hq
    exact (bounds_of_mem_placed hq).1

/-- All beginnings are aligned when the first one is and only the last length is free. -/
theorem dvd_placed_iff {w base : ℕ} {sizes : List ℕ} :
    (∀ p ∈ placed base sizes, w ∣ p.1) ↔
      (sizes ≠ [] → w ∣ base ∧ ∀ size ∈ sizes.dropLast, w ∣ size) := by
  induction sizes generalizing base with
  | nil => simp [placed]
  | cons size sizes ih =>
    simp only [placed, List.forall_mem_cons, ih, ne_eq, reduceCtorEq, not_false_eq_true,
      true_implies]
    -- the last length is free, so the step is taken only where another block follows
    cases sizes with
    | nil => simp
    | cons next rest =>
      simp only [reduceCtorEq, not_false_eq_true, true_implies, List.dropLast_cons_cons,
        List.forall_mem_cons]
      constructor
      · rintro ⟨hbase, hnext, hrest⟩
        exact ⟨hbase, (Nat.dvd_add_right hbase).mp hnext, hrest⟩
      · rintro ⟨hbase, hsize, hrest⟩
        exact ⟨hbase, Nat.dvd_add hbase hsize, hrest⟩

/-! ## What a sequence of calls returns -/

/-- The requests leave room in the heap. -/
def Fits (heap : Area) (sizes : List Word) : Prop :=
  heap.start.toNat + (sizes.map BitVec.toNat).sum < heap.stop.toNat

instance (heap : Area) (sizes : List Word) : Decidable (Fits heap sizes) :=
  inferInstanceAs (Decidable (_ < _))

def Block.interval (b : Block) : ℕ × ℕ := (b.start.toNat, b.size.toNat)

/-- From any point of the sequence on: `here` is where the next block begins. -/
theorem kmallocs_from {heap : Area} {addr here : Word} {sizes : List Word}
    (hhere : here = if addr = 0 then heap.start else addr)
    (hstart : heap.start.toNat ≤ here.toNat)
    (hfits : here.toNat + (sizes.map BitVec.toNat).sum < heap.stop.toNat) :
    ∃ blocks, kmallocs heap addr sizes = some blocks ∧ blocks.map Block.size = sizes ∧
      blocks.map Block.interval = placed here.toNat (sizes.map BitVec.toNat) := by
  induction sizes generalizing addr here with
  | nil => exact ⟨[], rfl, rfl, rfl⟩
  | cons size sizes ih =>
    rw [List.map_cons, List.sum_cons] at hfits
    have hstop := heap.stop.isLt
    have hadd : (here + size).toNat = here.toNat + size.toNat := by
      rw [BitVec.toNat_add, Nat.mod_eq_of_lt (by omega)]
    have hroom : here + size < heap.stop := by
      rw [BitVec.lt_def, hadd]
      omega
    have hcall : kmalloc heap addr size = some (⟨here, size⟩, here + size) := by
      simp only [kmalloc, ← hhere, if_pos hroom]
    -- the pointer is null again only at the beginning of a heap that begins there
    have hnext : here + size = if here + size = 0 then heap.start else here + size := by
      split
      · rename_i hzero
        rw [hzero] at hadd
        rw [hzero]
        apply BitVec.eq_of_toNat_eq
        simp only [BitVec.ofNat_eq_ofNat, BitVec.toNat_ofNat, Nat.zero_mod] at hadd ⊢
        omega
      · rfl
    rcases ih hnext (by omega) (by omega) with ⟨blocks, hrest, hsizes, hplaced⟩
    refine ⟨⟨here, size⟩ :: blocks, ?_, ?_, ?_⟩
    · rw [kmallocs, hcall]
      simp only [hrest, Option.map_some]
    · rw [List.map_cons, hsizes]
    · rw [List.map_cons, hplaced, hadd]
      rfl

/-- The calls return blocks of the requested sizes that share no byte and lie in the heap,
each one fit for an object of a word. -/
structure Serves (heap : Area) (sizes : List Word) (blocks : List Block) : Prop where
  returned : kmallocs heap 0 sizes = some blocks
  sizes : blocks.map Block.size = sizes
  disjoint : blocks.Pairwise fun a b => a.start.toNat + a.size.toNat ≤ b.start.toNat ∨
    b.start.toNat + b.size.toNat ≤ a.start.toNat
  inside : ∀ b ∈ blocks, heap.start.toNat ≤ b.start.toNat ∧
    b.start.toNat + b.size.toNat ≤ heap.stop.toNat
  aligned : ∀ b ∈ blocks, 4 ∣ b.start.toNat

/-- Requests that leave room in the heap are served with disjoint blocks inside it.  All of
them are aligned exactly when the heap is and no request but the last one is for a number of
bytes that is not a multiple of four. -/
theorem kmallocs_serve_iff (heap : Area) (sizes : List Word) (hfits : Fits heap sizes) :
    (∃ blocks, Serves heap sizes blocks) ↔
      (sizes ≠ [] → 4 ∣ heap.start.toNat ∧ ∀ size ∈ sizes.dropLast, 4 ∣ size.toNat) := by
  rcases @kmallocs_from heap 0 heap.start sizes (if_pos rfl).symm le_rfl hfits with
    ⟨blocks, hrun, hsizes, hplaced⟩
  have haligned : (∀ b ∈ blocks, 4 ∣ b.start.toNat) ↔
      (sizes ≠ [] → 4 ∣ heap.start.toNat ∧ ∀ size ∈ sizes.dropLast, 4 ∣ size.toNat) := by
    have hiff := @dvd_placed_iff 4 heap.start.toNat (sizes.map BitVec.toNat)
    rw [← hplaced] at hiff
    simpa [Block.interval, ← List.map_dropLast] using hiff
  constructor
  · rintro ⟨others, hserves⟩
    obtain rfl : others = blocks := Option.some_inj.mp (hserves.returned.symm.trans hrun)
    exact haligned.mp hserves.aligned
  · intro hcond
    refine ⟨blocks, hrun, hsizes, ?_, ?_, haligned.mpr hcond⟩
    · have hpairs := pairwise_placed heap.start.toNat (sizes.map BitVec.toNat)
      rw [← hplaced, List.pairwise_map] at hpairs
      exact hpairs.imp fun hle => Or.inl hle
    · intro b hb
      have hmem : b.interval ∈ placed heap.start.toNat (sizes.map BitVec.toNat) :=
        hplaced ▸ List.mem_map_of_mem hb
      have hbounds := bounds_of_mem_placed hmem
      exact ⟨hbounds.1, le_trans hbounds.2 (Nat.le_of_lt hfits)⟩

/-- The heap of the linker script. -/
def jydHeap : Area := ⟨0x8010c000#32, 0x80110000#32⟩

theorem kmallocs_serve_iff_words : ∃ blocks, Serves jydHeap [8#32, 4#32, 3#32] blocks :=
  (kmallocs_serve_iff jydHeap [8#32, 4#32, 3#32] (by decide)).mpr
    fun _ => ⟨by decide, by simp⟩

/-- One byte, then a word: the word gets an odd address. -/
theorem word_behind_byte_misaligned :
    Fits jydHeap [1#32, 4#32] ∧
      kmallocs jydHeap 0 [1#32, 4#32] =
        some [⟨0x8010c000#32, 1#32⟩, ⟨0x8010c001#32, 4#32⟩] ∧
      ¬ 4 ∣ (0x8010c001#32).toNat := by
  decide

end Klib
end Jyd
