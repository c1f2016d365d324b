import Jyd.Core.Addressing
import Jyd.Soc.JydDevices

/-!
# MaskedRdWrMem — the byte-masked memory under loads and stores of any width

The words of the memory, the mask and data of a store and the extension of a load are
three separate circuits.  Together they are a little-endian byte memory: what a load
returns is determined by the last store to each of its bytes.
-/

namespace Jyd
namespace Soc
namespace MaskedRdWrMem

open Hdl Jyd.Core

variable (sizeInByte : ℕ)

/-! ## Accesses -/

inductive Access
  | load (addr : Word) (func3t : BitVec 3)
  | store (addr : Word) (func3t : BitVec 3) (data : Word)
  deriving DecidableEq, Repr

namespace Access

/-- A naturally aligned byte, halfword or word inside the memory. -/
def Aligned : Access → Prop
  | load addr func3t =>
    supportedLoadWidth func3t = true ∧ addr.toNat % accessBytes func3t = 0 ∧
      addr.toNat < sizeInByte
  | store addr func3t _ =>
    supportedStoreWidth func3t = true ∧ addr.toNat % accessBytes func3t = 0 ∧
      addr.toNat < sizeInByte

instance : (a : Access) → Decidable (a.Aligned sizeInByte)
  | load _ _ => inferInstanceAs (Decidable (_ ∧ _ ∧ _))
  | store _ _ _ => inferInstanceAs (Decidable (_ ∧ _ ∧ _))

/-- What an access leaves in the byte at `x`. -/
def writes (x : Word) : Access → Option (BitVec 8)
  | load _ _ => none
  | store addr func3t data =>
    if (x - addr).toNat < accessBytes func3t then some (byteOf data (x - addr).toNat) else none

end Access

/-- The value that a load returns. -/
def loadResult (mem : ℕ → Word) (addr : Word) (func3t : BitVec 3) : Word :=
  ExtLoadData (read sizeInByte mem addr.toNat) (addr.extractLsb' 0 2) func3t

def perform (mem : ℕ → Word) : Access → ℕ → Word
  | .load _ _ => mem
  | .store addr func3t data =>
    write sizeInByte mem addr.toNat (GenMemWMask (addr.extractLsb' 0 2) func3t)
      (GenMemWData (addr.extractLsb' 0 2) data)

/-- The words after a history of accesses, the last one first. -/
def contents (mem : ℕ → Word) : List Access → ℕ → Word
  | [] => mem
  | access :: past => perform sizeInByte (contents mem past) access

/-! ## Bytes -/

/-- The bytes of a memory of words, in little-endian order. -/
def bytes (mem : ℕ → Word) : Bytes := fun x => byteOf (mem (x.toNat / 4)) (x.toNat % 4)

/-- The byte that was last stored at an address, or else the one that was there before. -/
def lastStored (B : Bytes) (history : List Access) : Bytes := fun x =>
  (history.findSome? (Access.writes x)).getD (B x)

theorem lastStored_store (B : Bytes) (addr : Word) (func3t : BitVec 3) (data : Word)
    (past : List Access) :
    lastStored B (.store addr func3t data :: past) =
      (lastStored B past).store addr (accessBytes func3t) data := by
  funext x
  rw [lastStored, List.findSome?_cons, Access.writes, Bytes.store]
  by_cases hx : (x - addr).toNat < accessBytes func3t
  · rw [if_pos hx, if_pos hx]
    rfl
  · rw [if_neg hx, if_neg hx]
    rfl

variable {sizeInByte}

/-- The word of each address of the memory. -/
def wordMap (hsize : sizeInByte % 4 = 0) : WordMap where
  region := fun a => a.toNat < sizeInByte
  cell := fun a => a.toNat / 4
  same_word := by
    intro a b ha hword
    exact ⟨by omega, hword.symm⟩
  same_cell := fun _ _ hcell => hcell

section Histories

variable (hsize : sizeInByte % 4 = 0) {mem : ℕ → Word} {B : Bytes}

theorem represents_bytes (mem : ℕ → Word) : (wordMap hsize).Represents mem (bytes mem) :=
  fun _ _ => rfl

include hsize

/-- One store moves the represented bytes. -/
theorem represents_store (h : (wordMap hsize).Represents mem B) {addr : Word} {func3t : BitVec 3}
    {data : Word} (hok : (Access.store addr func3t data).Aligned sizeInByte) :
    (wordMap hsize).Represents (perform sizeInByte mem (.store addr func3t data))
      (B.store addr (accessBytes func3t) data) := by
  rcases hok with ⟨hwidth, haligned, hin⟩
  have hoff := offset_toNat addr
  have hmod : (addr.extractLsb' 0 2).toNat % accessBytes func3t = 0 := by
    rw [hoff]
    exact mod_four_aligned haligned
  -- an aligned access does not cross the end of its word
  have hword := access_in_word _ _ hmod
  have hindex : addr.toNat / 4 < sizeInByte / 4 := by omega
  rw [perform, write, if_pos hindex]
  refine h.store (a := addr) hin (by omega) ?_ ?_
  · intro k hk
    rw [GenMemWMask_getLsbD _ _ hwidth hmod k hk, hoff]
  · intro k hk
    rw [← hoff]
    exact byteOf_GenMemWData data hmod hk

/-- A history of accesses leaves the bytes that were last stored. -/
theorem represents_contents (mem : ℕ → Word) (history : List Access)
    (h : ∀ access ∈ history, access.Aligned sizeInByte) :
    (wordMap hsize).Represents (contents sizeInByte mem history)
      (lastStored (bytes mem) history) := by
  -- the last access is at the head of the history
  induction history with
  | nil => exact represents_bytes hsize mem
  | cons access past ih =>
    have hpast := ih fun a ha => h a (List.mem_cons_of_mem access ha)
    cases access with
    | load addr func3t => exact hpast
    | store addr func3t data =>
      rw [lastStored_store]
      exact represents_store hsize hpast (h _ List.mem_cons_self)

theorem loadResult_eq (h : (wordMap hsize).Represents mem B) {addr : Word} {func3t : BitVec 3}
    (hok : (Access.load addr func3t).Aligned sizeInByte) :
    loadResult sizeInByte mem addr func3t = loadValue B addr func3t := by
  rcases hok with ⟨hwidth, haligned, hin⟩
  have hindex : addr.toNat / 4 < sizeInByte / 4 := by omega
  rw [loadResult, read, if_pos hindex]
  exact ExtLoadData_eq hwidth haligned fun k hk => h.byteOf_add (a := addr) hin hk

end Histories

/-- After any history of aligned accesses, every byte is the one last stored there, a load
returns the last stored bytes in its extension, and a store changes only its own bytes. -/
theorem masked_memory_is_byte_memory (hsize : sizeInByte % 4 = 0) (mem : ℕ → Word)
    (history : List Access) (h : ∀ access ∈ history, access.Aligned sizeInByte) :
    (∀ x : Word, x.toNat < sizeInByte →
      bytes (contents sizeInByte mem history) x = lastStored (bytes mem) history x) ∧
    (∀ addr func3t, (Access.load addr func3t).Aligned sizeInByte →
      loadResult sizeInByte (contents sizeInByte mem history) addr func3t =
        loadValue (lastStored (bytes mem) history) addr func3t) ∧
    ∀ addr func3t data, (Access.store addr func3t data).Aligned sizeInByte →
      ∀ x : Word, x.toNat < sizeInByte →
        bytes (contents sizeInByte mem (.store addr func3t data :: history)) x =
          if (x - addr).toNat < accessBytes func3t then byteOf data (x - addr).toNat
          else bytes (contents sizeInByte mem history) x := by
  have hnow := represents_contents hsize mem history h
  refine ⟨fun x hx => hnow x hx, fun addr func3t hok => loadResult_eq hsize hnow hok, ?_⟩
  intro addr func3t data hok x hx
  have hbefore : bytes (contents sizeInByte mem history) x = lastStored (bytes mem) history x :=
    hnow x hx
  rw [hbefore]
  exact represents_store hsize hnow hok x hx

/-- A byte, a halfword and a word store that overlap, seen by loads of all widths. -/
def overlapping : List Access :=
  [.store 2 0b001#3 0xbbcc#32, .load 0 0b010#3, .store 1 0b000#3 0xaa#32,
    .store 0 0b010#3 0x11223344#32]

theorem masked_memory_is_byte_memory_overlapping :
    loadResult 16 (contents 16 (fun _ => 0) overlapping) 0 0b010#3 = 0xbbccaa44#32 ∧
      loadResult 16 (contents 16 (fun _ => 0) overlapping) 3 0b000#3 = 0xffffffbb#32 := by
  have hsize : 16 % 4 = 0 := rfl
  have hloads := (masked_memory_is_byte_memory hsize (fun _ => 0) overlapping (by decide)).2.1
  refine ⟨(hloads 0 0b010#3 (by decide)).trans ?_, (hloads 3 0b000#3 (by decide)).trans ?_⟩
  · decide
  · decide

end MaskedRdWrMem
end Soc
end Jyd
