import Jyd.Hdl.Signal
import Mathlib.Data.Nat.Count

/-!
# Axi4 — the wires of an AXI4 port

The five channels of `AXI4IO`, with 32-bit addresses and data, as the two ends drive
them in one cycle.  A beat is transferred on a channel when it is valid and ready.
-/

namespace Jyd
namespace Hdl
namespace Axi4

/-! ## Beats -/

/-- A beat of the AR or AW channel. -/
structure Addr where
  addr : Word
  id : BitVec 4
  len : BitVec 8
  size : BitVec 3
  burst : BitVec 2
  deriving DecidableEq, Repr

structure WData where
  data : Word
  strb : BitVec 4
  last : Bool
  deriving DecidableEq, Repr

structure BResp where
  resp : BitVec 2
  id : BitVec 4
  deriving DecidableEq, Repr

structure RData where
  data : Word
  resp : BitVec 2
  last : Bool
  id : BitVec 4
  deriving DecidableEq, Repr

def INCR : BitVec 2 := 1
def OKAY : BitVec 2 := 0

/-! ## The two ends of a port -/

structure Master where
  aw : Valid Addr
  w : Valid WData
  bready : Bool
  ar : Valid Addr
  rready : Bool
  deriving DecidableEq, Repr

structure Slave where
  awready : Bool
  wready : Bool
  b : Valid BResp
  arready : Bool
  r : Valid RData
  deriving DecidableEq, Repr

variable (m : Master) (s : Slave)

def awFire : Bool := m.aw.valid && s.awready
def wFire : Bool := m.w.valid && s.wready
def bFire : Bool := s.b.valid && m.bready
def arFire : Bool := m.ar.valid && s.arready
def rFire : Bool := s.r.valid && m.rready

/-- A slave that takes every beat that is held long enough, and that answers every read and
every write it has taken. -/
structure Responsive (m : ℕ → Master) (s : ℕ → Slave) : Prop where
  aw : ∀ t, (∀ u, t ≤ u → (m u).aw.valid = true) → ∃ u, t ≤ u ∧ (s u).awready = true
  w : ∀ t, (∀ u, t ≤ u → (m u).w.valid = true) → ∃ u, t ≤ u ∧ (s u).wready = true
  ar : ∀ t, (∀ u, t ≤ u → (m u).ar.valid = true) → ∃ u, t ≤ u ∧ (s u).arready = true
  r : ∀ t, arFire (m t) (s t) = true → ∃ u, t < u ∧ (s u).r.valid = true
  b : ∀ t t', awFire (m t) (s t) = true → wFire (m t') (s t') = true →
    ∃ u, t < u ∧ t' < u ∧ (s u).b.valid = true

/-- Up to cycle `N`, the slave answers only reads and writes that it has taken before, and
holds an answer until the master takes it. -/
def CompliantUpTo (m : ℕ → Master) (s : ℕ → Slave) (N : ℕ) : Prop :=
  ∀ t < N,
    ((s t).r.valid = true →
      Nat.count (fun k => rFire (m k) (s k) = true) t <
        Nat.count (fun k => arFire (m k) (s k) = true) t ∧
      ((m t).rready = false → (s (t + 1)).r = (s t).r)) ∧
    ((s t).b.valid = true →
      Nat.count (fun k => bFire (m k) (s k) = true) t <
        min (Nat.count (fun k => awFire (m k) (s k) = true) t)
          (Nat.count (fun k => wFire (m k) (s k) = true) t) ∧
      ((m t).bready = false → (s (t + 1)).b = (s t).b))

instance (m : ℕ → Master) (s : ℕ → Slave) (N : ℕ) : Decidable (CompliantUpTo m s N) :=
  inferInstanceAs (Decidable (∀ t < N, _ ∧ _))

/-- A slave that is always ready and always answers. -/
def eager : Slave := ⟨true, true, ⟨true, ⟨OKAY, 0⟩⟩, true, ⟨true, ⟨0, OKAY, true, 0⟩⟩⟩

theorem responsive_of_eager {m : ℕ → Master} {s : ℕ → Slave} {T : ℕ}
    (h : ∀ k, T < k → s k = eager) : Responsive m s := by
  have hlate : ∀ t, T < max (t + 1) (T + 1) := fun t => by omega
  refine ⟨?_, ?_, ?_, ?_, ?_⟩
  · exact fun t _ => ⟨max (t + 1) (T + 1), by omega, by rw [h _ (hlate t)]; rfl⟩
  · exact fun t _ => ⟨max (t + 1) (T + 1), by omega, by rw [h _ (hlate t)]; rfl⟩
  · exact fun t _ => ⟨max (t + 1) (T + 1), by omega, by rw [h _ (hlate t)]; rfl⟩
  · exact fun t _ => ⟨max (t + 1) (T + 1), by omega, by rw [h _ (hlate t)]; rfl⟩
  · exact fun t t' _ _ =>
      ⟨max (t + t' + 1) (T + 1), by omega, by omega, by rw [h _ (hlate (t + t'))]; rfl⟩

/-- A master without requests. -/
def Master.idle (bready rready : Bool) : Master :=
  ⟨⟨false, ⟨0, 0, 0, 0, 0⟩⟩, ⟨false, ⟨0, 0, false⟩⟩, bready, ⟨false, ⟨0, 0, 0, 0, 0⟩⟩, rready⟩

/-- A request for `len + 1` words from `addr` on. -/
def Master.read (addr : Word) (len : BitVec 8) (rready : Bool) : Master :=
  { Master.idle true rready with ar := ⟨true, ⟨addr, 0, len, 2, INCR⟩⟩ }

/-- The address and the data of a write of one word. -/
def Master.write (addr data : Word) (bready : Bool) : Master :=
  { Master.idle bready true with
    aw := ⟨true, ⟨addr, 0, 0, 2, INCR⟩⟩
    w := ⟨true, ⟨data, 0b1111, true⟩⟩ }

/-! ## What has passed a port -/

/-- A read accepted in cycle `start`, with the data beats transferred for it. -/
structure Read where
  start : ℕ
  ar : Addr
  beats : List RData
  deriving DecidableEq, Repr

/-- The number of beats a read asks for. -/
def Read.size (r : Read) : ℕ := r.ar.len.toNat + 1

/-- Every beat is there, and only the last one is marked as the last. -/
def Read.Exact (r : Read) : Prop :=
  r.beats.map RData.last = List.replicate r.ar.len.toNat false ++ [true]

/-- Some beats are missing, and none is marked as the last. -/
def Read.Partial (r : Read) : Prop :=
  r.beats.length < r.size ∧ ∀ beat ∈ r.beats, beat.last = false

/-- Reads in the order of their acceptance, those that have all their beats apart from
those that wait for some, and the handshakes of the write channels. -/
structure Log where
  cycle : ℕ
  answered : List Read
  waiting : List Read
  stray : ℕ
  aws : ℕ
  ws : ℕ
  bs : ℕ
  deriving DecidableEq, Repr

namespace Log

def empty : Log := ⟨0, [], [], 0, 0, 0, 0⟩

/-- A data beat belongs to the oldest read that waits. -/
def takeBeat (beat : RData) (l : Log) : Log :=
  match l.waiting with
  | [] => { l with stray := l.stray + 1 }
  | r :: rest =>
    let r' : Read := { r with beats := r.beats ++ [beat] }
    if r'.beats.length = r.size then { l with answered := l.answered ++ [r'], waiting := rest }
    else { l with waiting := r' :: rest }

def watch (m : Master) (s : Slave) (l : Log) : Log :=
  let taken := if rFire m s then l.takeBeat s.r.bits else l
  { cycle := l.cycle + 1
    answered := taken.answered
    waiting := taken.waiting ++ (if arFire m s then [⟨l.cycle, m.ar.bits, []⟩] else [])
    stray := taken.stray
    aws := l.aws + (awFire m s).toNat
    ws := l.ws + (wFire m s).toNat
    bs := l.bs + (bFire m s).toNat }

/-- Nothing came that was not asked for, and what came is what was asked for. -/
structure WellServed (l : Log) : Prop where
  stray : l.stray = 0
  answered : ∀ r ∈ l.answered, r.Exact
  waiting : ∀ r ∈ l.waiting, r.Partial
  aws : l.bs ≤ l.aws
  ws : l.bs ≤ l.ws

/-- The reads accepted so far. -/
def reads (l : Log) : ℕ := l.answered.length + l.waiting.length

variable {m : Master} {s : Slave} {l : Log}

@[simp] theorem watch_aws : (l.watch m s).aws = l.aws + (awFire m s).toNat := rfl
@[simp] theorem watch_ws : (l.watch m s).ws = l.ws + (wFire m s).toNat := rfl
@[simp] theorem watch_bs : (l.watch m s).bs = l.bs + (bFire m s).toNat := rfl

theorem reads_takeBeat (beat : RData) (l : Log) : (l.takeBeat beat).reads = l.reads := by
  rw [takeBeat]
  split
  · rfl
  · rename_i r rest hw
    dsimp only
    split
    · simp only [reads, hw, List.length_append, List.length_cons, List.length_nil]
      omega
    · simp only [reads, hw, List.length_cons]

theorem reads_le_watch (m : Master) (s : Slave) (l : Log) : l.reads ≤ (l.watch m s).reads := by
  have htaken : (if rFire m s then l.takeBeat s.r.bits else l).reads = l.reads := by
    split
    · exact reads_takeBeat _ _
    · rfl
  rw [← htaken]
  simp only [reads, watch, List.length_append]
  omega

theorem aws_le_watch (m : Master) (s : Slave) (l : Log) : l.aws ≤ (l.watch m s).aws := by
  rw [watch_aws]
  exact Nat.le_add_right _ _

theorem watch_of_no_beat (h : rFire m s = false) :
    l.watch m s =
      { cycle := l.cycle + 1
        answered := l.answered
        waiting := l.waiting ++ (if arFire m s then [⟨l.cycle, m.ar.bits, []⟩] else [])
        stray := l.stray
        aws := l.aws + (awFire m s).toNat
        ws := l.ws + (wFire m s).toNat
        bs := l.bs + (bFire m s).toNat } := by
  simp [watch, h]

/-- The last beat of the only read that waits. -/
theorem watch_of_last {r : Read} (hr : rFire m s = true) (har : arFire m s = false)
    (hw : l.waiting = [r]) (hsize : r.beats.length + 1 = r.size) :
    (l.watch m s).answered = l.answered ++ [{ r with beats := r.beats ++ [s.r.bits] }] ∧
      (l.watch m s).waiting = [] ∧ (l.watch m s).stray = l.stray := by
  simp [watch, hr, har, takeBeat, hw, hsize]

/-- Another beat of the only read that waits. -/
theorem watch_of_beat {r : Read} (hr : rFire m s = true) (har : arFire m s = false)
    (hw : l.waiting = [r]) (hsize : r.beats.length + 1 ≠ r.size) :
    (l.watch m s).answered = l.answered ∧
      (l.watch m s).waiting = [{ r with beats := r.beats ++ [s.r.bits] }] ∧
      (l.watch m s).stray = l.stray := by
  simp [watch, hr, har, takeBeat, hw, hsize]

end Log

end Axi4
end Hdl
end Jyd
