import Jyd.Stdio.File

/-!
# ItracePack — the packed instruction trace of the cache simulator

A pack is a header and a sequence of records; a record stands for a run of pcs.  The
writer keeps the run it is extending in `current`, the reader the run it is handing
out.  A failed assertion is `none`.
-/

namespace Jyd
namespace Cachesim

open Stdio

def ONE_PC_STEP : BitVec 32 := 4

structure PcRecord where
  pc : BitVec 32
  count : BitVec 8
  deriving DecidableEq, Repr

/-- The two `size_t` fields of the header. -/
structure PackHeader where
  size : BitVec 64
  nRecords : BitVec 64
  deriving DecidableEq, Repr

def PackHeader.codec : Codec PackHeader where
  size := 16
  encode := fun h => ((uint 8).pair (uint 8)).encode (h.size, h.nRecords)
  decode := fun bytes =>
    ⟨(((uint 8).pair (uint 8)).decode bytes).1, (((uint 8).pair (uint 8)).decode bytes).2⟩
  length_encode := fun _ => ((uint 8).pair (uint 8)).length_encode _
  decode_encode := fun h => by rw [Codec.decode_encode]

structure ItracePack where
  isCreate : Bool
  header : PackHeader
  fp : File
  current : PcRecord
  deriving DecidableEq, Repr

namespace ItracePack

/-! ## Writing -/

def create : ItracePack where
  isCreate := true
  header := ⟨0, 0⟩
  fp := File.empty.fwrite PackHeader.codec ⟨0, 0⟩
  current := ⟨0, 0⟩

def saveOneRecord (pack : ItracePack) : Option ItracePack :=
  if pack.isCreate then
    some
      { pack with
        fp := (pack.fp.fwrite (uint 4) pack.current.pc).fwrite (uint 1) pack.current.count
        header := { pack.header with nRecords := pack.header.nRecords + 1 } }
  else none

/-- The current record is saved unless its pc still is the initial zero. -/
def saveCurrent (pack : ItracePack) : Option ItracePack :=
  if pack.current.pc ≠ 0 then pack.saveOneRecord else some pack

def add (pack : ItracePack) (pc : BitVec 32) : Option ItracePack :=
  if pack.current.pc + pack.current.count.setWidth 32 + ONE_PC_STEP = pc then
    if pack.current.count = 0xff then none
    else
      some
        { pack with
          current := { pack.current with count := pack.current.count + 1 }
          header := { pack.header with size := pack.header.size + 1 } }
  else do
    let saved ← pack.saveCurrent
    some
      { saved with
        current := ⟨pc, 0⟩
        header := { saved.header with size := saved.header.size + 1 } }

/-- `itrace_pack_close` of a created pack: the bytes left in the file. -/
def close (pack : ItracePack) : Option (List (BitVec 8)) := do
  let saved ← pack.saveCurrent
  some (saved.fp.rewind.fwrite PackHeader.codec saved.header).bytes

def addAll : ItracePack → List (BitVec 32) → Option ItracePack
  | pack, [] => some pack
  | pack, pc :: pcs => do
      let added ← pack.add pc
      addAll added pcs

/-! ## Reading -/

def loadOneRecord (pack : ItracePack) : Option ItracePack :=
  if pack.isCreate then none
  else do
    let (pc, fp) ← pack.fp.fread (uint 4)
    let (count, fp) ← fp.fread (uint 1)
    some { pack with fp := fp, current := ⟨pc, count⟩ }

/-- `itrace_pack_open` of a file with these bytes. -/
def openFile (bytes : List (BitVec 8)) : Option ItracePack := do
  let (header, fp) ← (⟨bytes, 0⟩ : File).fread PackHeader.codec
  let pack : ItracePack := { isCreate := false, header := header, fp := fp, current := ⟨0, 0⟩ }
  if 0 < header.nRecords then pack.loadOneRecord else some pack

def pickone (pack : ItracePack) : Option (BitVec 32 × ItracePack) :=
  if pack.header.size = 0 then some (0, pack)
  else do
    let pc := pack.current.pc + pack.current.count.setWidth 32 * ONE_PC_STEP
    let moved ←
      if pack.current.count = 0 then
        if 1 < pack.header.size then pack.loadOneRecord else some pack
      else some { pack with current := { pack.current with count := pack.current.count - 1 } }
    some (pc, { moved with header := { moved.header with size := moved.header.size - 1 } })

def pickMany : ℕ → ItracePack → Option (List (BitVec 32))
  | 0, _ => some []
  | n + 1, pack => do
      let (pc, rest) ← pack.pickone
      let pcs ← pickMany n rest
      some (pc :: pcs)

/-! ## A trace through a file -/

def save (pcs : List (BitVec 32)) : Option (List (BitVec 8)) := do
  let pack ← create.addAll pcs
  pack.close

/-- Pick as many pcs as the header announces. -/
def load (bytes : List (BitVec 8)) : Option (List (BitVec 32)) := do
  let pack ← openFile bytes
  pickMany pack.header.size.toNat pack

def roundTrip (pcs : List (BitVec 32)) : Option (List (BitVec 32)) := do
  let bytes ← save pcs
  load bytes

end ItracePack

end Cachesim
end Jyd
