import Jyd.Hdl.Tally
import Jyd.Nemu.ProfileDCache
import Jyd.Nemu.ProfileDecode
import Mathlib.Algebra.BigOperators.Group.Finset.Piecewise
import Mathlib.Algebra.BigOperators.Group.Finset.Basic
import Mathlib.Data.Fintype.Basic

/-!
# ProfileRecord — the tables of the instruction profiler

`riscv_profile_record` is called for every executed instruction.  It counts the instruction in
the current phase of the run, in the entry of its pc and in the tables of operations.  The
statistics of load uses, of the cache shadows and of the branch predictors are not part of this
model.

The counters are 64 bits wide.  Each advances by at most two for an instruction, and the phase
table ends long before one of them could wrap, so they are natural numbers here.
-/

namespace Jyd
namespace Nemu
namespace Profile

open Hdl

def PHASE_LEN : ℕ := 16000000
def MAX_PHASES : ℕ := 128

/-! ## Executed instructions -/

/-- The arguments of a call: the executed instruction and its source operands. -/
structure Retired where
  s : Decode
  rs1Before : Word
  rs2Before : Word
  deriving DecidableEq, Repr

namespace Retired

variable (e : Retired)

def kind : Kind := kindOf e.s.inst
def op : Word := e.s.inst &&& 0x7f#32
def f3 : BitVec 3 := e.s.inst.extractLsb' 12 3
def rd : BitVec 5 := e.s.inst.extractLsb' 7 5
def rs1 : BitVec 5 := e.s.inst.extractLsb' 15 5
def rs2 : BitVec 5 := e.s.inst.extractLsb' 20 5

def use1 : Bool := !(e.op == 0x37#32 || e.op == 0x17#32 || e.op == 0x6f#32)
def use2 : Bool := e.op == 0x33#32 || e.op == 0x23#32 || e.op == 0x63#32 || e.op == 0x0b#32

def isControl : Bool := e.kind == .branch || e.kind == .jal || e.kind == .jalr

/-- A control transfer that leaves the straight line. -/
def isTaken : Bool := e.isControl && e.s.dnpc != e.s.snpc

/-- The address of a load or a store. -/
def addr : Word :=
  let x := e.s.inst
  let imm : BitVec 12 :=
    if e.kind = .load then x.extractLsb' 20 12 else x.extractLsb' 25 7 ++ x.extractLsb' 7 5
  e.rs1Before + imm.signExtend 32

def writes : Bool := e.kind != .branch && e.kind != .store && e.op != 0x0f#32

end Retired

/-- One more at one place of a table. -/
def bump {ι : Type} [DecidableEq ι] (t : ι → ℕ) (i : ι) : ι → ℕ := Function.update t i (t i + 1)

/-! ## Statistics of operations -/

structure PackStat where
  rs2Zero : ℕ
  rs1UpperZero : ℕ
  matchesXor : ℕ
  deriving DecidableEq, Repr

def PackStat.record (t : PackStat) (e : Retired) : PackStat :=
  let packResult := (e.rs1Before &&& 0xffff#32) ||| (e.rs2Before <<< 16)
  { rs2Zero := t.rs2Zero + (e.rs2Before == 0#32).toNat
    rs1UpperZero := t.rs1UpperZero + (e.rs1Before >>> 16 == 0#32).toNat
    matchesXor := t.matchesXor + (packResult == e.rs1Before ^^^ e.rs2Before).toNat }

structure BranchStat where
  total : ℕ
  taken : ℕ
  backward : ℕ
  backwardTaken : ℕ
  backwardNotTaken : ℕ
  forwardTaken : ℕ
  forwardNotTaken : ℕ
  staticBackwardMiss : ℕ
  staticNotTakenMiss : ℕ
  deriving DecidableEq, Repr

def BranchStat.record (t : BranchStat) (e : Retired) : BranchStat :=
  let taken := e.s.dnpc != e.s.snpc
  let backward := (branchImm e.s.inst).msb
  { total := t.total + 1
    taken := t.taken + taken.toNat
    backward := t.backward + backward.toNat
    backwardTaken := t.backwardTaken + (backward && taken).toNat
    backwardNotTaken := t.backwardNotTaken + (backward && !taken).toNat
    forwardTaken := t.forwardTaken + (!backward && taken).toNat
    forwardNotTaken := t.forwardNotTaken + (!backward && !taken).toNat
    staticBackwardMiss := t.staticBackwardMiss + (backward != taken).toNat
    staticNotTakenMiss := t.staticNotTakenMiss + taken.toNat }

structure MStat where
  mops : BitVec 3 → ℕ
  divideByZero : ℕ
  signedOverflow : ℕ

def MStat.record (t : MStat) (e : Retired) : MStat :=
  let isDivRem := decide (4 ≤ e.f3)
  let isSignedDivRem := e.f3 == 4 || e.f3 == 6
  { mops := bump t.mops (mopOf e.s.inst)
    divideByZero := t.divideByZero + (isDivRem && e.rs2Before == 0#32).toNat
    signedOverflow := t.signedOverflow +
      (isSignedDivRem && e.rs1Before == 0x80000000#32 && e.rs2Before == 0xffffffff#32).toNat }

structure BStat where
  bops : BOp → ℕ
  pack : PackStat

def BStat.record (t : BStat) (e : Retired) : BStat where
  bops := bump t.bops (bopOf e.s.inst)
  pack := if bopOf e.s.inst = .pack then t.pack.record e else t.pack

structure JalrStat where
  rd : Fin 3 → ℕ
  rs1 : Fin 3 → ℕ

def JalrStat.record (t : JalrStat) (e : Retired) : JalrStat where
  rd := bump t.rd (if e.rd = 0 then 0 else if e.rd = 1 then 1 else 2)
  rs1 := bump t.rs1 (if e.rs1 = 1 then 0 else if e.rs1 = 5 then 1 else 2)

structure MemoryStat where
  widths : MemWidth → ℕ
  regions : Fin 5 → ℕ
  aliases : BitVec 9 → ℕ

def MemoryStat.record (t : MemoryStat) (e : Retired) : MemoryStat :=
  let region : Fin 5 :=
    if e.addr < 0x10000000#32 then 0
    else if e.addr < 0x80000000#32 then 1
    else if e.addr < 0x90000000#32 then 2
    else if e.addr < 0xc0000000#32 then 3
    else 4
  { widths := bump t.widths (memoryWidth e.s.inst (e.kind == .load))
    regions := bump t.regions region
    aliases := bump t.aliases (e.addr.extractLsb' 0 9) }

/-- Distances and kinds of the pairs of a producer and its consumer. -/
structure RawStat where
  lastWrite : BitVec 5 → ℕ
  lastKind : BitVec 5 → Kind
  rawDist : Fin 9 → ℕ
  prodCons : Kind → Kind → ℕ

namespace RawStat

variable (t : RawStat) (e : Retired)

/-- The sources that an earlier instruction has written. -/
def sources : List (BitVec 5) :=
  ([(e.use1, e.rs1), (e.use2, e.rs2)].filter fun z => z.1 && z.2 != 0 && t.lastWrite z.2 != 0).map
    Prod.snd

def countSource (seq : ℕ) (t : RawStat) (src : BitVec 5) : RawStat :=
  let d := seq - t.lastWrite src
  { t with
    rawDist := bump t.rawDist (if h : d < 8 then ⟨d, by omega⟩ else 8)
    prodCons := Function.update t.prodCons (t.lastKind src) (bump (t.prodCons (t.lastKind src)) e.kind) }

def recordWrite (seq : ℕ) : RawStat :=
  if e.writes && e.rd != 0 then
    { t with
      lastWrite := Function.update t.lastWrite e.rd seq
      lastKind := Function.update t.lastKind e.rd e.kind }
  else t

def record (seq : ℕ) : RawStat :=
  recordWrite ((t.sources e).foldl (countSource e seq) t) e seq

end RawStat

structure Stats where
  kinds : Kind → ℕ
  raw : RawStat
  m : MStat
  b : BStat
  crcops : BitVec 3 → ℕ
  branch : BranchStat
  jalr : JalrStat
  memory : MemoryStat

namespace Stats

/-- Counters in static storage. -/
def zero : Stats where
  kinds := fun _ => 0
  raw := ⟨fun _ => 0, fun _ => .alu, fun _ => 0, fun _ _ => 0⟩
  m := ⟨fun _ => 0, 0, 0⟩
  b := ⟨fun _ => 0, ⟨0, 0, 0⟩⟩
  crcops := fun _ => 0
  branch := ⟨0, 0, 0, 0, 0, 0, 0, 0, 0⟩
  jalr := ⟨fun _ => 0, fun _ => 0⟩
  memory := ⟨fun _ => 0, fun _ => 0, fun _ => 0⟩

def record (t : Stats) (e : Retired) (seq : ℕ) : Stats where
  kinds := bump t.kinds e.kind
  raw := t.raw.record e seq
  m := if e.kind = .m then t.m.record e else t.m
  b := if e.kind = .b then t.b.record e else t.b
  crcops := if e.kind = .crc then bump t.crcops e.f3 else t.crcops
  branch := if e.kind = .branch then t.branch.record e else t.branch
  jalr := if e.kind = .jalr then t.jalr.record e else t.jalr
  memory := if e.kind = .load ∨ e.kind = .store then t.memory.record e else t.memory

end Stats

/-! ## Phases and pcs -/

structure Phase where
  inst : ℕ
  control : ℕ
  taken : ℕ
  load : ℕ
  store : ℕ
  raw : ℕ
  deriving DecidableEq, Repr

namespace Phase

def zero : Phase := ⟨0, 0, 0, 0, 0, 0⟩

def record (p : Phase) (e : Retired) (raw : ℕ) : Phase where
  inst := p.inst + 1
  control := p.control + e.isControl.toNat
  taken := p.taken + e.isTaken.toNat
  load := p.load + (e.kind == .load).toNat
  store := p.store + (e.kind == .store).toNat
  raw := p.raw + raw

end Phase

structure PcStat where
  pc : Word
  n : ℕ
  taken : ℕ
  deriving DecidableEq, Repr

namespace PcStat

def zero : PcStat := ⟨0, 0, 0⟩

/-- The entry of the pc.  An entry that another pc owns keeps its pc and its number, but a taken
transfer is counted in it. -/
def record (q : PcStat) (e : Retired) : PcStat :=
  -- there is no probing: the first pc of an entry keeps it
  let q' := if q.n = 0 ∨ q.pc = e.s.pc then { q with pc := e.s.pc, n := q.n + 1 } else q
  { q' with taken := q'.taken + e.isTaken.toNat }

end PcStat

/-- `((pc >> 2) * 2654435761u) & (PC_SLOTS - 1)`. -/
def pcSlot (pc : Word) : BitVec 20 := ((pc >>> 2) * 2654435761#32).setWidth 20

structure Counters where
  total : ℕ
  phases : Fin MAX_PHASES → Phase
  pcs : BitVec 20 → PcStat
  stats : Stats

namespace Counters

def zero : Counters := ⟨0, fun _ => Phase.zero, fun _ => PcStat.zero, Stats.zero⟩

/-- One call of `riscv_profile_record`.  The phase table has no entry behind the last phase, and
the source does not check the index. -/
def record (st : Counters) (e : Retired) : Option Counters :=
  if h : st.total / PHASE_LEN < MAX_PHASES then
    let p : Fin MAX_PHASES := ⟨st.total / PHASE_LEN, h⟩
    some
      { total := st.total + 1
        phases := Function.update st.phases p
          ((st.phases p).record e (st.stats.raw.sources e).length)
        pcs := tallyStep (fun e => pcSlot e.s.pc) PcStat.record st.pcs e
        stats := st.stats.record e (st.total + 1) }
  -- the write behind the table is undefined behaviour
  else none

/-- The counters after a run. -/
def run (es : List Retired) : Option Counters := es.foldlM record zero

theorem run_concat (es : List Retired) (e : Retired) :
    run (es ++ [e]) = (run es).bind fun st => st.record e := by
  rw [run, List.foldlM_append]
  simp [run]

end Counters

/-! ## What a run leaves in the phase table -/

/-- The instructions of a run from number `k * PHASE_LEN` to number
`(k + 1) * PHASE_LEN - 1`. -/
def phaseOf (k : ℕ) (es : List Retired) : List Retired := (es.drop (k * PHASE_LEN)).take PHASE_LEN

theorem phaseOf_concat (k : ℕ) (es : List Retired) (e : Retired) :
    phaseOf k (es ++ [e]) = phaseOf k es ++ if es.length / PHASE_LEN = k then [e] else [] := by
  have hpos : 0 < PHASE_LEN := by decide
  have hiff : es.length / PHASE_LEN = k ↔
      k * PHASE_LEN ≤ es.length ∧ es.length < k * PHASE_LEN + PHASE_LEN := by
    rw [Nat.div_eq_iff hpos]
    omega
  unfold phaseOf
  rcases Nat.lt_or_ge es.length (k * PHASE_LEN) with hlt | hge
  · rw [if_neg (by omega), List.drop_eq_nil_of_le (by simpa using Nat.succ_le_of_lt hlt),
      List.drop_eq_nil_of_le hlt.le]
    rfl
  · rw [List.drop_append_of_le_length hge]
    rcases Nat.lt_or_ge es.length (k * PHASE_LEN + PHASE_LEN) with hin | hout
    · -- the instruction is the next one of the phase, which is not full yet
      rw [if_pos (hiff.mpr ⟨hge, hin⟩), List.take_of_length_le (by simp; omega),
        List.take_of_length_le (by simp; omega)]
    · rw [if_neg (by omega), List.append_nil, List.take_append_of_le_length (by simp; omega)]

/-- The counters of a phase count a list of instructions. -/
structure Phase.Counts (p : Phase) (es : List Retired) : Prop where
  inst : p.inst = es.length
  control : p.control = es.countP Retired.isControl
  taken : p.taken = es.countP Retired.isTaken
  load : p.load = es.countP fun e => e.kind == .load
  store : p.store = es.countP fun e => e.kind == .store

theorem Phase.Counts.record {p : Phase} {es : List Retired} (h : p.Counts es) (e : Retired)
    (raw : ℕ) : (p.record e raw).Counts (es ++ [e]) := by
  have hcount : ∀ q : Retired → Bool, (es ++ [e]).countP q = es.countP q + (q e).toNat := by
    intro q
    cases hq : q e <;> simp [hq]
  exact
    { inst := by rw [List.length_append, ← h.inst]; rfl
      control := by rw [hcount, ← h.control]; rfl
      taken := by rw [hcount, ← h.taken]; rfl
      load := by rw [hcount, ← h.load]; rfl
      store := by rw [hcount, ← h.store]; rfl }

namespace Counters

/-- What the tables hold after a run that they have room for. -/
structure Agrees (es : List Retired) (st : Counters) : Prop where
  total : st.total = es.length
  phases : ∀ k, (st.phases k).Counts (phaseOf k es)
  sum : ∑ k, (st.phases k).inst = st.total
  pcs : st.pcs = tally (fun e => pcSlot e.s.pc) PcStat.record (fun _ => PcStat.zero) es

theorem agrees_zero : Agrees [] zero where
  total := rfl
  phases _ := by
    rw [phaseOf, List.drop_nil, List.take_nil]
    exact ⟨rfl, rfl, rfl, rfl, rfl⟩
  sum := Finset.sum_const_zero
  pcs := rfl

theorem record_eq_some_iff {st st' : Counters} {e : Retired} :
    st.record e = some st' ↔
      ∃ h : st.total / PHASE_LEN < MAX_PHASES,
        { total := st.total + 1
          phases := Function.update st.phases ⟨st.total / PHASE_LEN, h⟩
            ((st.phases ⟨st.total / PHASE_LEN, h⟩).record e (st.stats.raw.sources e).length)
          pcs := tallyStep (fun e => pcSlot e.s.pc) PcStat.record st.pcs e
          stats := st.stats.record e (st.total + 1) } = st' := by
  rw [record]
  split
  · rename_i h
    simp [h]
  · rename_i h
    simp [h]

theorem Agrees.record {es : List Retired} {st st' : Counters} {e : Retired} (h : Agrees es st)
    (hrec : st.record e = some st') : Agrees (es ++ [e]) st' := by
  obtain ⟨hp, rfl⟩ := record_eq_some_iff.mp hrec
  refine ⟨?_, fun k => ?_, ?_, ?_⟩
  · rw [List.length_append, ← h.total]
    rfl
  · rw [phaseOf_concat, ← h.total]
    by_cases hk : st.total / PHASE_LEN = k
    · obtain rfl : (⟨st.total / PHASE_LEN, hp⟩ : Fin MAX_PHASES) = k := Fin.ext hk
      rw [if_pos rfl]
      simpa only [Function.update_self] using (h.phases _).record e _
    · have hne : k ≠ ⟨st.total / PHASE_LEN, hp⟩ := fun heq => hk (congrArg Fin.val heq).symm
      rw [if_neg hk, List.append_nil]
      simpa only [Function.update_of_ne hne] using h.phases k
  · -- one entry of the sum advances by one
    have hinst : ∀ k, (Function.update st.phases ⟨st.total / PHASE_LEN, hp⟩
        ((st.phases ⟨st.total / PHASE_LEN, hp⟩).record e (st.stats.raw.sources e).length) k).inst =
          (st.phases k).inst + if k = ⟨st.total / PHASE_LEN, hp⟩ then 1 else 0 := by
      intro k
      by_cases hk : k = ⟨st.total / PHASE_LEN, hp⟩
      · subst hk
        rw [Function.update_self, if_pos rfl]
        rfl
      · rw [Function.update_of_ne hk, if_neg hk, Nat.add_zero]
    simp only [hinst, Finset.sum_add_distrib, Finset.sum_ite_eq', Finset.mem_univ, if_true, h.sum]
  · rw [tally, List.foldl_append, List.foldl_cons, List.foldl_nil, ← tally, ← h.pcs]

/-- The table has room for an instruction exactly when fewer than all numbers are used. -/
theorem Agrees.exists_record {es : List Retired} {st : Counters} (h : Agrees es st) (e : Retired) :
    (∃ st', st.record e = some st') ↔ es.length < MAX_PHASES * PHASE_LEN := by
  rw [← h.total, ← Nat.div_lt_iff_lt_mul (by decide)]
  constructor
  · rintro ⟨st', hrec⟩
    exact (record_eq_some_iff.mp hrec).choose
  · intro hroom
    exact ⟨_, record_eq_some_iff.mpr ⟨hroom, rfl⟩⟩

theorem agrees_run (es : List Retired) : ∀ st, run es = some st → Agrees es st := by
  induction es using List.reverseRecOn with
  | nil =>
    rintro st hst
    obtain rfl : zero = st := Option.some.inj hst
    exact agrees_zero
  | append_singleton es e ih =>
    intro st' hst'
    rw [run_concat] at hst'
    obtain ⟨st, hst, hrec⟩ := Option.bind_eq_some_iff.mp hst'
    exact (ih st hst).record hrec

theorem exists_run_iff (es : List Retired) :
    (∃ st, run es = some st) ↔ es.length ≤ MAX_PHASES * PHASE_LEN := by
  induction es using List.reverseRecOn with
  | nil => exact iff_of_true ⟨zero, rfl⟩ (Nat.zero_le _)
  | append_singleton es e ih =>
    rw [List.length_append, List.length_singleton, Nat.succ_le_iff]
    constructor
    · rintro ⟨st', hst'⟩
      rw [run_concat] at hst'
      obtain ⟨st, hst, hrec⟩ := Option.bind_eq_some_iff.mp hst'
      exact ((agrees_run es st hst).exists_record e).mp ⟨st', hrec⟩
    · intro hroom
      obtain ⟨st, hst⟩ := ih.mpr hroom.le
      obtain ⟨st', hrec⟩ := ((agrees_run es st hst).exists_record e).mpr hroom
      exact ⟨st', by rw [run_concat, hst, Option.bind_some, hrec]⟩

/-- The phases of a run partition it: they have as many instructions as the run, and a phase
counts exactly the instructions with its numbers. -/
def Partitions (es : List Retired) : Prop :=
  ∃ st, run es = some st ∧ st.total = es.length ∧ ∑ k, (st.phases k).inst = st.total ∧
    ∀ k, (st.phases k).Counts (phaseOf k es)

theorem phases_partition_iff (es : List Retired) :
    Partitions es ↔ es.length ≤ MAX_PHASES * PHASE_LEN := by
  rw [← exists_run_iff]
  constructor
  · rintro ⟨st, hst, -⟩
    exact ⟨st, hst⟩
  · rintro ⟨st, hst⟩
    have h := agrees_run es st hst
    exact ⟨st, hst, h.total, h.sum, h.phases⟩

/-- A `nop` at the start of the instruction memory. -/
def nopRetired : Retired := ⟨⟨0x80000000#32, 0x80000004#32, 0x80000004#32, 0x00000013#32⟩, 0, 0⟩

/-- The run that is one instruction longer than the phase table. -/
def longRun : List Retired := List.replicate (MAX_PHASES * PHASE_LEN + 1) nopRetired

theorem run_longRun : ¬ ∃ st, run longRun = some st := by
  rw [exists_run_iff, longRun, List.length_replicate]
  omega

theorem longRun_not_partitioned : ¬ Partitions longRun := by
  rintro ⟨st, hst, -⟩
  exact run_longRun ⟨st, hst⟩

end Counters

/-! ## What a run leaves in the pc table -/

/-- The constant of the hash has an inverse modulo the size of the table. -/
theorem pcSlot_inverse (pc : Word) : pcSlot pc * 733009#20 = pc.extractLsb' 2 20 := by
  have hconst : (2654435761#32).setWidth 20 * 733009#20 = 1#20 := by decide
  rw [pcSlot, BitVec.setWidth_mul _ _ (by decide), BitVec.mul_assoc, hconst, BitVec.mul_one]
  ext i hi
  simp [BitVec.getElem_setWidth]

/-- Word-aligned pcs of a window of 4 MiB have entries of their own. -/
theorem pcSlot_inj {base a b : Word} (ha : a.extractLsb' 0 2 = 0) (hb : b.extractLsb' 0 2 = 0)
    (hwa : (a - base).toNat < 2 ^ 22) (hwb : (b - base).toNat < 2 ^ 22)
    (h : pcSlot a = pcSlot b) : a = b := by
  have hidx : a.extractLsb' 2 20 = b.extractLsb' 2 20 := by
    rw [← pcSlot_inverse, ← pcSlot_inverse, h]
  have hmod : a.toNat % 2 ^ 22 = b.toNat % 2 ^ 22 := by
    have h0 := congrArg BitVec.toNat (ha.trans hb.symm)
    have h2 := congrArg BitVec.toNat hidx
    simp only [BitVec.extractLsb'_toNat, Nat.shiftRight_eq_div_pow] at h0 h2
    omega
  -- the pcs agree modulo 4 MiB and lie in one window of that size
  apply BitVec.eq_of_toNat_eq
  rw [BitVec.toNat_sub] at hwa hwb
  have := a.isLt
  have := b.isLt
  have := base.isLt
  omega

namespace PcStat

/-- An entry that only one pc uses. -/
theorem foldl_record {a : Word} (es : List Retired) (hpc : ∀ e ∈ es, e.s.pc = a) (q : PcStat)
    (hq : q.n = 0 ∨ q.pc = a) :
    es.foldl record q =
      ⟨if es = [] then q.pc else a, q.n + es.length, q.taken + es.countP Retired.isTaken⟩ := by
  induction es generalizing q with
  | nil => rfl
  | cons e es ih =>
    have he : e.s.pc = a := hpc e List.mem_cons_self
    have hrec : q.record e = ⟨a, q.n + 1, q.taken + e.isTaken.toNat⟩ := by
      rw [record, he, if_pos hq]
    have htaken : (e :: es).countP Retired.isTaken =
        e.isTaken.toNat + es.countP Retired.isTaken := by
      cases h : e.isTaken <;> simp [h, Nat.add_comm]
    rw [List.foldl_cons, hrec, ih (fun x hx => hpc x (List.mem_cons_of_mem _ hx)) _ (Or.inr rfl),
      htaken, List.length_cons, if_neg (List.cons_ne_nil _ _), Nat.add_assoc, Nat.add_assoc,
      Nat.add_comm 1 es.length]
    simp

end PcStat

namespace Counters

/-- The entry of every executed pc holds the pc, how often it was executed and how many of these
were taken control transfers. -/
def CountsPcs (es : List Retired) : Prop :=
  ∃ st, run es = some st ∧
    ∀ e ∈ es, st.pcs (pcSlot e.s.pc) =
      ⟨e.s.pc, es.countP fun e' => e'.s.pc == e.s.pc,
        es.countP fun e' => e'.s.pc == e.s.pc && e'.isTaken⟩

theorem Agrees.pcs_apply {es : List Retired} {st : Counters} (h : Agrees es st) {base : Word}
    (halign : ∀ e ∈ es, e.s.pc.extractLsb' 0 2 = 0)
    (hwindow : ∀ e ∈ es, (e.s.pc - base).toNat < 2 ^ 22) {e : Retired} (he : e ∈ es) :
    st.pcs (pcSlot e.s.pc) =
      ⟨e.s.pc, es.countP fun e' => e'.s.pc == e.s.pc,
        es.countP fun e' => e'.s.pc == e.s.pc && e'.isTaken⟩ := by
  -- in the window the instructions of the entry are those of the pc
  have hfilter : (es.filter fun e' => pcSlot e'.s.pc = pcSlot e.s.pc) =
      es.filter fun e' => e'.s.pc == e.s.pc := by
    apply List.filter_congr
    intro e' he'
    rw [Bool.eq_iff_iff, decide_eq_true_iff, beq_iff_eq]
    constructor
    · exact pcSlot_inj (halign e' he') (halign e he) (hwindow e' he') (hwindow e he)
    · exact congrArg pcSlot
  have hmem : e ∈ es.filter fun e' => e'.s.pc == e.s.pc := by
    rw [List.mem_filter]
    exact ⟨he, beq_self_eq_true _⟩
  have hpc : ∀ e' ∈ es.filter fun e' => e'.s.pc == e.s.pc, e'.s.pc = e.s.pc :=
    fun e' he' => eq_of_beq (List.mem_filter.mp he').2
  rw [h.pcs, tally_apply, hfilter, PcStat.foldl_record _ hpc _ (Or.inl rfl),
    if_neg (List.ne_nil_of_mem hmem), ← List.countP_eq_length_filter, List.countP_filter]
  simp [PcStat.zero, Bool.and_comm]

/-- Word-aligned pcs of a window of 4 MiB are counted exactly, as long as the run stays in the
phase table. -/
theorem pcs_counted_iff (es : List Retired) (halign : ∀ e ∈ es, e.s.pc.extractLsb' 0 2 = 0)
    (hwindow : ∃ base : Word, ∀ e ∈ es, (e.s.pc - base).toNat < 2 ^ 22) :
    CountsPcs es ↔ es.length ≤ MAX_PHASES * PHASE_LEN := by
  obtain ⟨base, hbase⟩ := hwindow
  rw [← exists_run_iff]
  constructor
  · rintro ⟨st, hst, -⟩
    exact ⟨st, hst⟩
  · rintro ⟨st, hst⟩
    exact ⟨st, hst, fun e he => (agrees_run es st hst).pcs_apply halign hbase he⟩

/-- A branch to itself that is taken once and then left, with the `nop` in front of it. -/
def loopRetired : List Retired :=
  [nopRetired,
    ⟨⟨0x80000004#32, 0x80000008#32, 0x80000004#32, 0x00000063#32⟩, 0, 0⟩,
    ⟨⟨0x80000004#32, 0x80000008#32, 0x80000008#32, 0x00000063#32⟩, 0, 1⟩]

theorem pcs_counted_iff_loop : CountsPcs loopRetired :=
  (pcs_counted_iff loopRetired (by simp [loopRetired, nopRetired])
    ⟨0x80000000#32, by simp [loopRetired, nopRetired]⟩).mpr (by decide)

theorem longRun_not_counted :
    (∀ e ∈ longRun, e.s.pc.extractLsb' 0 2 = 0) ∧
      (∃ base : Word, ∀ e ∈ longRun, (e.s.pc - base).toNat < 2 ^ 22) ∧ ¬ CountsPcs longRun := by
  have hnop : ∀ e ∈ longRun, e = nopRetired := fun e he => List.eq_of_mem_replicate he
  refine ⟨fun e he => ?_, ⟨nopRetired.s.pc, fun e he => ?_⟩, ?_⟩
  · rw [hnop e he]
    decide
  · rw [hnop e he]
    decide
  · rintro ⟨st, hst, -⟩
    exact run_longRun ⟨st, hst⟩

end Counters

end Profile
end Nemu
end Jyd
