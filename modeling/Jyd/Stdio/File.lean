import Mathlib.Data.Nat.Digits.Defs

/-!
# File — binary files read and written one object at a time

A file is its bytes and the position of the stream.  Objects go through a codec of
fixed size, as `fread` and `fwrite` see them through `sizeof`.  A short read fails; the
storage itself never does.
-/

namespace Jyd
namespace Stdio

/-! ## Codecs -/

/-- Objects of one size and their bytes. -/
structure Codec (α : Type) where
  size : ℕ
  encode : α → List (BitVec 8)
  decode : List (BitVec 8) → α
  length_encode : ∀ x, (encode x).length = size
  decode_encode : ∀ x, decode (encode x) = x

/-- The bytes of an unsigned integer, low byte first. -/
def littleEndian (n : ℕ) {w : ℕ} (x : BitVec w) : List (BitVec 8) :=
  (List.range n).map fun k => x.extractLsb' (8 * k) 8

def ofLittleEndian (w : ℕ) (bytes : List (BitVec 8)) : BitVec w :=
  BitVec.ofNat w (Nat.ofDigits 256 (bytes.map BitVec.toNat))

theorem ofDigits_range (n x : ℕ) :
    Nat.ofDigits 256 ((List.range n).map fun k => x / 256 ^ k % 256) = x % 256 ^ n := by
  induction n with
  | zero => simp [Nat.mod_one]
  | succ n ih =>
    rw [List.range_succ, List.map_append, Nat.ofDigits_append, ih, pow_succ, Nat.mod_mul]
    simp

theorem ofLittleEndian_littleEndian {n w : ℕ} (hw : w = 8 * n) (x : BitVec w) :
    ofLittleEndian w (littleEndian n x) = x := by
  have hdigits : (littleEndian n x).map BitVec.toNat =
      (List.range n).map fun k => x.toNat / 256 ^ k % 256 := by
    simp only [littleEndian, List.map_map]
    apply List.map_congr_left
    intro k _
    simp [BitVec.extractLsb'_toNat, Nat.shiftRight_eq_div_pow, pow_mul]
  have hlt : x.toNat < 256 ^ n := by
    calc
      x.toNat < 2 ^ w := x.isLt
      _ = 256 ^ n := by rw [hw, pow_mul]; rfl
  rw [ofLittleEndian, hdigits, ofDigits_range, Nat.mod_eq_of_lt hlt, BitVec.ofNat_toNat,
    BitVec.setWidth_eq]

/-- An unsigned integer of `n` bytes. -/
def uint (n : ℕ) : Codec (BitVec (8 * n)) where
  size := n
  encode := littleEndian n
  decode := ofLittleEndian (8 * n)
  length_encode := fun x => by simp [littleEndian]
  decode_encode := ofLittleEndian_littleEndian rfl

/-- A record of two fields without padding. -/
def Codec.pair {α β : Type} (c : Codec α) (d : Codec β) : Codec (α × β) where
  size := c.size + d.size
  encode := fun x => c.encode x.1 ++ d.encode x.2
  decode := fun bytes => (c.decode (bytes.take c.size), d.decode (bytes.drop c.size))
  length_encode := fun x => by rw [List.length_append, c.length_encode, d.length_encode]
  decode_encode := fun x => by
    rw [List.take_left' (c.length_encode _), List.drop_left' (c.length_encode _), c.decode_encode,
      d.decode_encode]

/-! ## Files -/

structure File where
  bytes : List (BitVec 8)
  pos : ℕ
  deriving DecidableEq, Repr

namespace File

variable {α : Type}

/-- `fopen` for writing. -/
def empty : File := ⟨[], 0⟩

/-- `fseek` to the beginning. -/
def rewind (f : File) : File := { f with pos := 0 }

/-- `fwrite` of one object, over the bytes at the position. -/
def fwrite (c : Codec α) (x : α) (f : File) : File where
  bytes := f.bytes.take f.pos ++ c.encode x ++ f.bytes.drop (f.pos + c.size)
  pos := f.pos + c.size

/-- `fread` of one object. -/
def fread (c : Codec α) (f : File) : Option (α × File) :=
  if f.pos + c.size ≤ f.bytes.length then
    some (c.decode ((f.bytes.drop f.pos).take c.size), { f with pos := f.pos + c.size })
  else none

/-- A file that is being extended. -/
def atEnd (bytes : List (BitVec 8)) : File := ⟨bytes, bytes.length⟩

/-- A file read up to the end of `front`. -/
def between (front rest : List (BitVec 8)) : File := ⟨front ++ rest, front.length⟩

variable (c : Codec α) (x : α) (front rest : List (BitVec 8))

theorem fwrite_atEnd : (atEnd front).fwrite c x = atEnd (front ++ c.encode x) := by
  simp [fwrite, atEnd, c.length_encode]

theorem fwrite_rewind (y : α) :
    ((atEnd (c.encode x ++ rest)).rewind.fwrite c y).bytes = c.encode y ++ rest := by
  simp [fwrite, rewind, atEnd, List.drop_left' (c.length_encode x)]

theorem fread_between :
    (between front (c.encode x ++ rest)).fread c =
      some (x, between (front ++ c.encode x) rest) := by
  have hlen : front.length + c.size ≤ (front ++ (c.encode x ++ rest)).length := by
    simp only [List.length_append, c.length_encode]
    omega
  rw [fread, between, if_pos hlen]
  simp [between, List.take_left' (c.length_encode x), c.decode_encode, c.length_encode]

theorem fread_short (h : rest.length < c.size) : (between front rest).fread c = none := by
  have hlen : ¬ front.length + c.size ≤ (front ++ rest).length := by
    simp only [List.length_append]
    omega
  simp only [fread, between, hlen, if_false]

end File

end Stdio
end Jyd
