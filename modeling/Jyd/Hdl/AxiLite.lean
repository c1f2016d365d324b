import Jyd.Hdl.Signal

/-!
# AxiLite — the wires of an AXI4-Lite port and its transactions

A write is performed when both its address and its data have been taken, in whichever
order; a read is performed when its response is taken.  `Ledger` collects the transactions
that the handshakes of a port amount to.
-/

namespace Jyd
namespace Hdl
namespace AxiLite

/-! ## The two ends of a port -/

structure WData where
  data : Word
  strb : BitVec 4
  deriving DecidableEq, Repr

structure RData where
  data : Word
  resp : BitVec 2
  deriving DecidableEq, Repr

def OKAY : BitVec 2 := 0

variable {n : ℕ}

structure Master (n : ℕ) where
  aw : Valid (BitVec n)
  w : Valid WData
  bready : Bool
  ar : Valid (BitVec n)
  rready : Bool
  deriving DecidableEq, Repr

structure Slave where
  awready : Bool
  wready : Bool
  b : Valid (BitVec 2)
  arready : Bool
  r : Valid RData
  deriving DecidableEq, Repr

section Wires

variable (m : Master n) (s : Slave)

def awFire : Bool := m.aw.valid && s.awready
def wFire : Bool := m.w.valid && s.wready
def arFire : Bool := m.ar.valid && s.arready
def rFire : Bool := s.r.valid && m.rready

end Wires

/-- A slave that takes what is offered long enough, and answers while it is waited for. -/
structure Responsive (m : ℕ → Master n) (s : ℕ → Slave) : Prop where
  aw : ∀ t, (∀ u, t ≤ u → (m u).aw.valid = true) → ∃ u, t ≤ u ∧ (s u).awready = true
  w : ∀ t, (∀ u, t ≤ u → (m u).w.valid = true) → ∃ u, t ≤ u ∧ (s u).wready = true
  b : ∀ t, (∀ u, t ≤ u → (m u).bready = true) → ∃ u, t ≤ u ∧ (s u).b.valid = true
  ar : ∀ t, (∀ u, t ≤ u → (m u).ar.valid = true) → ∃ u, t ≤ u ∧ (s u).arready = true
  r : ∀ t, (∀ u, t ≤ u → (m u).rready = true) → ∃ u, t ≤ u ∧ (s u).r.valid = true

/-! ## Transactions -/

/-- Addresses and data taken so far, and the transactions they make up. -/
structure Ledger (n : ℕ) where
  aw : Option (BitVec n)
  w : Option WData
  writes : List (BitVec n × WData)
  ar : Option (BitVec n)
  reads : List (BitVec n × RData)
  deriving DecidableEq, Repr

namespace Ledger

def empty : Ledger n := ⟨none, none, [], none, []⟩

variable (l : Ledger n) (m : Master n) (s : Slave)

def takenAw : Option (BitVec n) := if awFire m s then some m.aw.bits else l.aw
def takenW : Option WData := if wFire m s then some m.w.bits else l.w

/-- The read that the response of this cycle completes. -/
def completedRead : Option (BitVec n × RData) :=
  if rFire m s then l.ar.map fun a => (a, s.r.bits) else none

def next : Ledger n where
  aw := if (l.takenW m s).isSome then none else l.takenAw m s
  w := if (l.takenAw m s).isSome then none else l.takenW m s
  writes :=
    match l.takenAw m s, l.takenW m s with
    | some a, some d => l.writes ++ [(a, d)]
    | _, _ => l.writes
  ar := if arFire m s then some m.ar.bits else l.ar
  reads := l.reads ++ (l.completedRead m s).toList

variable {l m s}

theorem data_of_completedRead {a : BitVec n} {d : RData} (h : l.completedRead m s = some (a, d)) :
    d = s.r.bits := by
  rw [completedRead] at h
  split at h
  · rcases Option.map_eq_some_iff.mp h with ⟨_, _, heq⟩
    exact (Prod.mk.inj heq).2.symm
  · cases h

/-- A cycle in which the master offers no write. -/
theorem next_no_write (haw : m.aw.valid = false) (hw : m.w.valid = false)
    (hopen : l.aw = none ∧ l.w = none) :
    (l.next m s).aw = none ∧ (l.next m s).w = none ∧ (l.next m s).writes = l.writes := by
  simp [next, takenAw, takenW, awFire, wFire, haw, hw, hopen]

end Ledger

end AxiLite
end Hdl
end Jyd
