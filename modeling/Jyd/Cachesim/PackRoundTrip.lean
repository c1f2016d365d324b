import Jyd.Cachesim.ItracePack
import Mathlib.Data.List.Chain
import Mathlib.Algebra.BigOperators.Group.List.Basic

/-!
# PackRoundTrip — what comes back from a packed trace

`runs` are the records a trace is written as, `handedOut` the pcs one record is read
as.  The writer counts steps of one byte while the reader takes steps of one word, so
a run of aligned pcs never grows beyond two; and the reader hands a run out from its
last pc down.  The trace that comes back is the concatenation of the runs, each
reversed.
-/

namespace Jyd
namespace Cachesim

open Stdio

/-! ## Records -/

namespace PcRecord

def bytes (r : PcRecord) : List (BitVec 8) := (uint 4).encode r.pc ++ (uint 1).encode r.count

/-- The pcs from the `k`-th one of a run down to its first. -/
def descend (pc : BitVec 32) : ℕ → List (BitVec 32)
  | 0 => [pc]
  | k + 1 => (pc + BitVec.ofNat 32 (k + 1) * ONE_PC_STEP) :: descend pc k

/-- The pcs the reader returns for a record. -/
def handedOut (r : PcRecord) : List (BitVec 32) := descend r.pc r.count.toNat

/-- The number of pcs in a sequence of records. -/
def total (rs : List PcRecord) : ℕ := (rs.map fun r => r.count.toNat + 1).sum

@[simp] theorem total_nil : total [] = 0 := rfl

@[simp] theorem total_cons (r : PcRecord) (rs : List PcRecord) :
    total (r :: rs) = r.count.toNat + 1 + total rs := by
  simp [total]

theorem length_le_total (rs : List PcRecord) : rs.length ≤ total rs := by
  induction rs with
  | nil => exact Nat.le_refl 0
  | cons r rs ih =>
    rw [total_cons, List.length_cons]
    omega

/-- The writer extends the run by this pc. -/
def Extends (r : PcRecord) (pc : BitVec 32) : Prop :=
  r.pc + r.count.setWidth 32 + ONE_PC_STEP = pc

instance (r : PcRecord) (pc : BitVec 32) : Decidable (r.Extends pc) :=
  inferInstanceAs (Decidable (_ = _))

/-- What closing the run leaves in the file. -/
def flush (r : PcRecord) : List PcRecord := if r.pc ≠ 0 then [r] else []

theorem flush_of_ne {r : PcRecord} (h : r.pc ≠ 0) : r.flush = [r] := if_pos h

/-- The records of a trace whose current run is `cur`. -/
def runs (cur : PcRecord) : List (BitVec 32) → List PcRecord
  | [] => cur.flush
  | pc :: pcs =>
    if cur.Extends pc then runs { cur with count := cur.count + 1 } pcs
    else cur.flush ++ runs ⟨pc, 0⟩ pcs

end PcRecord

open PcRecord

/-! ## Aligned traces -/

def WordAligned (pc : BitVec 32) : Prop := pc.toNat % 4 = 0

instance (pc : BitVec 32) : Decidable (WordAligned pc) := inferInstanceAs (Decidable (_ = _))

/-- The current run of an aligned trace. -/
structure PcRecord.Short (r : PcRecord) : Prop where
  aligned : WordAligned r.pc
  count : r.count = 0 ∨ r.count = 1

theorem PcRecord.short_single {pc : BitVec 32} (h : WordAligned pc) : Short ⟨pc, 0⟩ :=
  ⟨h, Or.inl rfl⟩

/-- Only a run of one pc is extended: the count is added as bytes. -/
theorem PcRecord.Short.count_of_extends {r : PcRecord} {pc : BitVec 32} (h : r.Short)
    (hpc : WordAligned pc) (hext : r.Extends pc) : r.count = 0 := by
  rcases h.count with h0 | h1
  · exact h0
  · exfalso
    have hval := congrArg BitVec.toNat hext
    have ha := h.aligned
    have hlt := r.pc.isLt
    simp only [h1, ONE_PC_STEP, WordAligned, BitVec.toNat_add, BitVec.toNat_setWidth,
      BitVec.ofNat_eq_ofNat, BitVec.toNat_ofNat] at hval ha hpc
    omega

theorem PcRecord.not_extends_pair {p pc : BitVec 32} (hp : WordAligned p) (hpc : WordAligned pc) :
    ¬ PcRecord.Extends ⟨p, 1⟩ pc := by
  intro hext
  have hcount := @Short.count_of_extends ⟨p, 1⟩ pc ⟨hp, Or.inr rfl⟩ hpc hext
  simp at hcount

theorem PcRecord.Short.extend {r : PcRecord} {pc : BitVec 32} (h : r.Short)
    (hpc : WordAligned pc) (hext : r.Extends pc) :
    Short { r with count := r.count + 1 } :=
  ⟨h.aligned, Or.inr (by simp [h.count_of_extends hpc hext])⟩

/-! ## The writer -/

namespace ItracePack

/-- A pack that is being written: the records in the file and the size so far. -/
def writer (cur : PcRecord) (rs : List PcRecord) (n : ℕ) : ItracePack where
  isCreate := true
  header := ⟨BitVec.ofNat 64 n, BitVec.ofNat 64 rs.length⟩
  fp := File.atEnd (PackHeader.codec.encode ⟨0, 0⟩ ++ rs.flatMap PcRecord.bytes)
  current := cur

theorem create_eq : create = writer ⟨0, 0⟩ [] 0 := by
  rfl

variable {cur : PcRecord} {rs : List PcRecord} {n : ℕ}

theorem saveCurrent_writer :
    (writer cur rs n).saveCurrent = some (writer cur (rs ++ cur.flush) n) := by
  by_cases h : cur.pc ≠ 0
  · have hflush := flush_of_ne h
    have hcur : (writer cur rs n).current.pc ≠ 0 := h
    rw [saveCurrent, if_pos hcur, saveOneRecord, hflush]
    simp only [writer, if_true, File.fwrite_atEnd, List.flatMap_append, List.flatMap_singleton,
      PcRecord.bytes, List.append_assoc, List.length_append, List.length_singleton,
      BitVec.ofNat_add]
    rfl
  · have hflush : cur.flush = [] := if_neg h
    have hcur : ¬ (writer cur rs n).current.pc ≠ 0 := h
    rw [saveCurrent, if_neg hcur, hflush, List.append_nil]

theorem add_of_extends {pc : BitVec 32} (h : cur.Extends pc) (hcount : cur.count = 0) :
    (writer cur rs n).add pc = some (writer { cur with count := cur.count + 1 } rs (n + 1)) := by
  have hext : (writer cur rs n).current.pc + (writer cur rs n).current.count.setWidth 32 +
      ONE_PC_STEP = pc := h
  have hff : ¬ (writer cur rs n).current.count = 0xff := by
    simp [writer, hcount]
  rw [add, if_pos hext, if_neg hff]
  simp only [writer, BitVec.ofNat_add]
  rfl

theorem add_of_break {pc : BitVec 32} (h : ¬ cur.Extends pc) :
    (writer cur rs n).add pc = some (writer ⟨pc, 0⟩ (rs ++ cur.flush) (n + 1)) := by
  have hext : ¬ (writer cur rs n).current.pc + (writer cur rs n).current.count.setWidth 32 +
      ONE_PC_STEP = pc := h
  rw [add, if_neg hext, saveCurrent_writer]
  simp only [Option.bind_eq_bind, Option.bind_some, writer, BitVec.ofNat_add]
  rfl

/-- Adding an aligned trace never fails, and leaves its runs. -/
theorem addAll_writer (pcs : List (BitVec 32)) (hcur : cur.Short)
    (haligned : ∀ pc ∈ pcs, WordAligned pc) :
    ∃ last saved, (writer cur rs n).addAll pcs = some (writer last saved (n + pcs.length)) ∧
      saved ++ last.flush = rs ++ runs cur pcs := by
  induction pcs generalizing cur rs n with
  | nil => exact ⟨cur, rs, rfl, rfl⟩
  | cons pc pcs ih =>
    have hpc := haligned pc List.mem_cons_self
    have hrest : ∀ q ∈ pcs, WordAligned q := fun q hq => haligned q (List.mem_cons_of_mem _ hq)
    have hlen : n + (pc :: pcs).length = n + 1 + pcs.length := by
      simp only [List.length_cons]
      omega
    by_cases h : cur.Extends pc
    · obtain ⟨last, saved, hadd, hruns⟩ :=
        @ih { cur with count := cur.count + 1 } rs (n + 1) (hcur.extend hpc h) hrest
      refine ⟨last, saved, ?_, ?_⟩
      · rw [addAll, add_of_extends h (hcur.count_of_extends hpc h), hlen]
        exact hadd
      · rw [hruns, runs, if_pos h]
    · obtain ⟨last, saved, hadd, hruns⟩ :=
        @ih ⟨pc, 0⟩ (rs ++ cur.flush) (n + 1) (short_single hpc) hrest
      refine ⟨last, saved, ?_, ?_⟩
      · rw [addAll, add_of_break h, hlen]
        exact hadd
      · rw [hruns, runs, if_neg h, List.append_assoc]

/-- The bytes of a pack with these records. -/
def fileOf (n : ℕ) (rs : List PcRecord) : List (BitVec 8) :=
  PackHeader.codec.encode ⟨BitVec.ofNat 64 n, BitVec.ofNat 64 rs.length⟩ ++
    rs.flatMap PcRecord.bytes

theorem close_writer : (writer cur rs n).close = some (fileOf n (rs ++ cur.flush)) := by
  rw [close, saveCurrent_writer]
  simp only [Option.bind_eq_bind, Option.bind_some, writer, File.fwrite_rewind]
  rfl

theorem short_initial : Short ⟨0, 0⟩ := short_single (by decide)

theorem addAll_isSome {pcs : List (BitVec 32)} (haligned : ∀ pc ∈ pcs, WordAligned pc) :
    (create.addAll pcs).isSome := by
  obtain ⟨_, _, hadd, _⟩ := @addAll_writer ⟨0, 0⟩ [] 0 pcs short_initial haligned
  rw [create_eq, hadd]
  rfl

theorem save_eq {pcs : List (BitVec 32)} (haligned : ∀ pc ∈ pcs, WordAligned pc) :
    save pcs = some (fileOf pcs.length (runs ⟨0, 0⟩ pcs)) := by
  obtain ⟨last, saved, hadd, hruns⟩ :=
    @addAll_writer ⟨0, 0⟩ [] 0 pcs short_initial haligned
  rw [save, create_eq, hadd]
  simp only [Option.bind_eq_bind, Option.bind_some, close_writer, hruns, Nat.zero_add,
    List.nil_append]

/-! ## The reader -/

/-- A pack that is being read: the current run, the records left in the file and the
number of pcs still announced. -/
def reader (front : List (BitVec 8)) (cur : PcRecord) (rs : List PcRecord) (n : ℕ)
    (nRecords : BitVec 64) : ItracePack where
  isCreate := false
  header := ⟨BitVec.ofNat 64 n, nRecords⟩
  fp := File.between front (rs.flatMap PcRecord.bytes)
  current := cur

variable {front : List (BitVec 8)} {nRecords : BitVec 64}

theorem loadOneRecord_cons (r : PcRecord) :
    (reader front cur (r :: rs) n nRecords).loadOneRecord =
      some (reader (front ++ r.bytes) r rs n nRecords) := by
  have hnot : ¬ (reader front cur (r :: rs) n nRecords).isCreate = true := Bool.false_ne_true
  have hfp : (reader front cur (r :: rs) n nRecords).fp =
      File.between front ((uint 4).encode r.pc ++
        ((uint 1).encode r.count ++ rs.flatMap PcRecord.bytes)) := by
    simp [reader, PcRecord.bytes]
  rw [loadOneRecord, if_neg hnot, hfp, File.fread_between]
  simp only [Option.bind_eq_bind, Option.bind_some, File.fread_between, List.append_assoc]
  rfl

theorem loadOneRecord_nil : (reader front cur [] n nRecords).loadOneRecord = none := by
  have hnot : ¬ (reader front cur [] n nRecords).isCreate = true := Bool.false_ne_true
  have hshort : (reader front cur [] n nRecords).fp.fread (uint 4) = none :=
    File.fread_short _ front [] (by decide)
  rw [loadOneRecord, if_neg hnot, hshort]
  rfl

theorem size_reader (hn : n + 1 < 2 ^ 64) :
    (reader front cur rs (n + 1) nRecords).header.size ≠ 0 ∧
      (1 < (reader front cur rs (n + 1) nRecords).header.size ↔ 0 < n) ∧
      (reader front cur rs (n + 1) nRecords).header.size - 1 = BitVec.ofNat 64 n := by
  have hsize : (reader front cur rs (n + 1) nRecords).header.size.toNat = n + 1 :=
    Nat.mod_eq_of_lt hn
  refine ⟨?_, ?_, ?_⟩
  · intro h
    rw [h] at hsize
    simp at hsize
  · rw [BitVec.lt_def, hsize]
    simp
  · simp only [reader, BitVec.ofNat_add, BitVec.ofNat_eq_ofNat, BitVec.add_sub_cancel]

/-- One pc of a run that has more of them. -/
theorem pickone_run {k : ℕ} (hk : cur.count.toNat = k + 1) (hn : n + 1 < 2 ^ 64) :
    (reader front cur rs (n + 1) nRecords).pickone =
      some (cur.pc + BitVec.ofNat 32 (k + 1) * ONE_PC_STEP,
        reader front { cur with count := cur.count - 1 } rs n nRecords) := by
  have hsize := @size_reader cur rs n front nRecords hn
  have hcount : ¬ (reader front cur rs (n + 1) nRecords).current.count = 0 := by
    intro h
    have hzero : cur.count = 0 := h
    simp [hzero] at hk
  have hstep : cur.count.setWidth 32 = BitVec.ofNat 32 (k + 1) := by
    rw [← hk]
    simp
  rw [pickone, if_neg hsize.1, if_neg hcount]
  simp only [Option.bind_eq_bind, Option.bind_some, hsize.2.2]
  rw [show (reader front cur rs (n + 1) nRecords).current = cur from rfl, hstep]
  rfl

/-- The first pc of a run, with another record behind it. -/
theorem pickone_next {r : PcRecord} (hcount : cur.count = 0) (hn : n + 1 < 2 ^ 64) (hpos : 0 < n) :
    (reader front cur (r :: rs) (n + 1) nRecords).pickone =
      some (cur.pc, reader (front ++ r.bytes) r rs n nRecords) := by
  have hsize := @size_reader cur (r :: rs) n front nRecords hn
  have hc : (reader front cur (r :: rs) (n + 1) nRecords).current = cur := rfl
  have hc0 : (reader front cur (r :: rs) (n + 1) nRecords).current.count = 0 := hcount
  rw [pickone, if_neg hsize.1, if_pos hc0, if_pos (hsize.2.1.mpr hpos), loadOneRecord_cons]
  simp only [Option.bind_eq_bind, Option.bind_some, hc, hcount]
  simp only [BitVec.ofNat_eq_ofNat, Nat.reduceLeDiff, Nat.reducePow, Nat.ofNat_pos,
    BitVec.setWidth_ofNat_of_le_of_lt, BitVec.zero_mul, BitVec.add_zero, reader, BitVec.ofNat_add,
    BitVec.add_sub_cancel]

/-- The last pc announced. -/
theorem pickone_last (hcount : cur.count = 0) :
    (reader front cur rs 1 nRecords).pickone = some (cur.pc, reader front cur rs 0 nRecords) := by
  have hsize := @size_reader cur rs 0 front nRecords (by decide)
  have hc : (reader front cur rs 1 nRecords).current = cur := rfl
  have hc0 : (reader front cur rs 1 nRecords).current.count = 0 := hcount
  rw [pickone, if_neg hsize.1, if_pos hc0, if_neg (fun h => absurd (hsize.2.1.mp h) (by decide))]
  simp only [Option.bind_eq_bind, Option.bind_some, hc, hcount]
  simp [reader]

/-- A header that announces more than the records hold. -/
theorem pickone_missing (hcount : cur.count = 0) (hn : n + 1 < 2 ^ 64) (hpos : 0 < n) :
    (reader front cur [] (n + 1) nRecords).pickone = none := by
  have hsize := @size_reader cur [] n front nRecords hn
  have hc0 : (reader front cur [] (n + 1) nRecords).current.count = 0 := hcount
  rw [pickone, if_neg hsize.1, if_pos hc0, if_pos (hsize.2.1.mpr hpos), loadOneRecord_nil]
  rfl

/-- The reader returns its records exactly if they are as many as announced; if they are
fewer, it runs over the end of the file. -/
theorem pickMany_reader (hn : n < 2 ^ 64) (htotal : total (cur :: rs) ≤ n) :
    pickMany n (reader front cur rs n nRecords) =
      if total (cur :: rs) = n then some ((cur :: rs).flatMap PcRecord.handedOut) else none := by
  -- by the announced number of pcs: each call of the reader returns one of them
  induction n generalizing cur rs front with
  | zero =>
    simp only [total_cons] at htotal
    omega
  | succ n ih =>
    rw [total_cons] at htotal
    cases hk : cur.count.toNat with
    | zero =>
      -- the current record has one pc left
      have hcount : cur.count = 0 := BitVec.eq_of_toNat_eq hk
      have hout : cur.handedOut = [cur.pc] := by rw [PcRecord.handedOut, hk, descend]
      cases rs with
      | nil =>
        cases n with
        | zero =>
          rw [pickMany, pickone_last hcount]
          simp [pickMany, hk, hout]
        | succ n =>
          -- more pcs are announced than recorded: the next read is past the end
          rw [pickMany, pickone_missing hcount hn (Nat.succ_pos n)]
          simp [hk]
      | cons r rs =>
        have hrest : total (r :: rs) ≤ n := by omega
        have hpos : 0 < n := by
          rw [total_cons] at hrest
          omega
        rw [pickMany, pickone_next hcount hn hpos]
        simp only [Option.bind_eq_bind, Option.bind_some, ih (Nat.lt_of_succ_lt hn) hrest]
        rw [total_cons cur, hk]
        by_cases heq : total (r :: rs) = n
        · rw [if_pos heq, if_pos (by omega)]
          simp [hout]
        · rw [if_neg heq, if_neg (by omega)]
          rfl
    | succ k =>
      -- the record counts down, so its pcs come last one first
      have hsub : (cur.count - 1).toNat = k := by
        have hlt := cur.count.isLt
        simp only [BitVec.toNat_sub, BitVec.ofNat_eq_ofNat, BitVec.toNat_ofNat]
        omega
      have hrest : total ({ cur with count := cur.count - 1 } :: rs) = k + 1 + total rs := by
        rw [total_cons, hsub]
      have hout : cur.handedOut = (cur.pc + BitVec.ofNat 32 (k + 1) * ONE_PC_STEP) ::
          PcRecord.handedOut { cur with count := cur.count - 1 } := by
        rw [PcRecord.handedOut, PcRecord.handedOut, hk, hsub, descend]
      rw [pickMany, pickone_run hk hn]
      have hle : total ({ cur with count := cur.count - 1 } :: rs) ≤ n := by omega
      simp only [Option.bind_eq_bind, Option.bind_some, ih (Nat.lt_of_succ_lt hn) hle]
      rw [total_cons cur, hk, hrest]
      by_cases heq : k + 1 + total rs = n
      · rw [if_pos heq, if_pos (by omega)]
        simp [hout]
      · rw [if_neg heq, if_neg (by omega)]
        rfl

theorem length_pickMany {pack : ItracePack} {out : List (BitVec 32)}
    (h : pickMany n pack = some out) : out.length = n := by
  induction n generalizing pack out with
  | zero =>
    simp only [pickMany, Option.some.injEq] at h
    rw [← h]
    rfl
  | succ n ih =>
    simp only [pickMany, Option.bind_eq_bind, Option.bind_eq_some_iff, Option.some.injEq] at h
    obtain ⟨⟨pc, rest⟩, _, pcs, hpcs, rfl⟩ := h
    rw [List.length_cons, ih hpcs]

/-! ## Opening the file -/

theorem fread_header (n : ℕ) (rs : List PcRecord) :
    (⟨fileOf n rs, 0⟩ : File).fread PackHeader.codec =
      some (⟨BitVec.ofNat 64 n, BitVec.ofNat 64 rs.length⟩,
        File.between
          (PackHeader.codec.encode ⟨BitVec.ofNat 64 n, BitVec.ofNat 64 rs.length⟩)
          (rs.flatMap PcRecord.bytes)) :=
  File.fread_between PackHeader.codec _ [] _

/-- Reading a pack without records: every pick is the initial zero. -/
theorem load_nil : load (fileOf n []) = pickMany (n % 2 ^ 64)
    (reader (PackHeader.codec.encode ⟨BitVec.ofNat 64 n, 0⟩) ⟨0, 0⟩ [] n 0) := by
  rw [load, openFile, fread_header]
  rfl

theorem openFile_cons (r : PcRecord) (hlen : (r :: rs).length < 2 ^ 64) :
    ∃ front, openFile (fileOf n (r :: rs)) =
      some (reader front r rs n (BitVec.ofNat 64 (r :: rs).length)) := by
  refine ⟨PackHeader.codec.encode ⟨BitVec.ofNat 64 n, BitVec.ofNat 64 (r :: rs).length⟩ ++ r.bytes,
    ?_⟩
  have hpos : 0 < BitVec.ofNat 64 (r :: rs).length := by
    rw [BitVec.lt_def, BitVec.toNat_ofNat, Nat.mod_eq_of_lt hlen]
    exact Nat.succ_pos _
  rw [openFile, fread_header]
  simp only [Option.bind_eq_bind, Option.bind_some, if_pos hpos]
  exact loadOneRecord_cons r

theorem load_eq (hpos : 0 < total rs) (hn : n < 2 ^ 64) (htotal : total rs ≤ n) :
    load (fileOf n rs) =
      if total rs = n then some (rs.flatMap PcRecord.handedOut) else none := by
  have hlen : rs.length < 2 ^ 64 :=
    Nat.lt_of_le_of_lt ((PcRecord.length_le_total rs).trans htotal) hn
  cases rs with
  | nil => exact absurd hpos (Nat.lt_irrefl 0)
  | cons r rs =>
    obtain ⟨front, hopen⟩ := openFile_cons r hlen
    have hsize : (reader front r rs n (BitVec.ofNat 64 (r :: rs).length)).header.size.toNat = n :=
      Nat.mod_eq_of_lt hn
    rw [load, hopen]
    simp only [Option.bind_eq_bind, Option.bind_some, hsize]
    exact pickMany_reader hn htotal

theorem length_load {out : List (BitVec 32)} (h : load (fileOf n rs) = some out) :
    out.length = n % 2 ^ 64 := by
  simp only [load, Option.bind_eq_bind, Option.bind_eq_some_iff] at h
  obtain ⟨pack, hopen, hpick⟩ := h
  have hsize : pack.header.size = BitVec.ofNat 64 n := by
    rw [openFile, fread_header] at hopen
    simp only [Option.bind_eq_bind, Option.bind_some] at hopen
    split at hopen
    · -- loading a record leaves the header alone
      simp only [loadOneRecord, Bool.false_eq_true, if_false, Option.bind_eq_bind,
        Option.bind_eq_some_iff, Option.some.injEq] at hopen
      obtain ⟨_, _, _, _, rfl⟩ := hopen
      rfl
    · rw [← Option.some.inj hopen]
  rw [length_pickMany hpick, hsize, BitVec.toNat_ofNat]

/-! ## The round trip -/

theorem total_runs {pcs : List (BitVec 32)} (hcur : cur.Short) (hpc : cur.pc ≠ 0)
    (h : ∀ pc ∈ pcs, WordAligned pc ∧ pc ≠ 0) :
    total (runs cur pcs) = cur.count.toNat + 1 + pcs.length := by
  induction pcs generalizing cur with
  | nil =>
    rw [runs, flush_of_ne hpc]
    simp
  | cons pc pcs ih =>
    have hhead := h pc List.mem_cons_self
    have hrest : ∀ q ∈ pcs, WordAligned q ∧ q ≠ 0 := fun q hq => h q (List.mem_cons_of_mem _ hq)
    by_cases hext : cur.Extends pc
    · have hcount := hcur.count_of_extends hhead.1 hext
      rw [runs, if_pos hext, ih (hcur.extend hhead.1 hext) hpc hrest]
      simp only [hcount, List.length_cons]
      simp
      omega
    · rw [runs, if_neg hext, flush_of_ne hpc, List.singleton_append, total_cons,
        ih (short_single hhead.1) hhead.2 hrest]
      simp only [List.length_cons]
      simp
      omega

/-- The first record of a run that is not extended any more. -/
theorem runs_of_pair {p : BitVec 32} (hp : WordAligned p) (hp0 : p ≠ 0) {pcs : List (BitVec 32)}
    (h : ∀ pc ∈ pcs, WordAligned pc) : ∃ rest, runs ⟨p, 1⟩ pcs = ⟨p, 1⟩ :: rest := by
  have hflush := @flush_of_ne ⟨p, 1⟩ hp0
  cases pcs with
  | nil => exact ⟨[], hflush⟩
  | cons pc pcs =>
    have hext := PcRecord.not_extends_pair hp (h pc List.mem_cons_self)
    exact ⟨runs ⟨pc, 0⟩ pcs, by rw [runs, if_neg hext, hflush, List.singleton_append]⟩

/-- A pc directly behind its predecessor. -/
def Consecutive (p q : BitVec 32) : Prop := q = p + ONE_PC_STEP

instance (p q : BitVec 32) : Decidable (Consecutive p q) := inferInstanceAs (Decidable (_ = _))

theorem extends_single {p q : BitVec 32} : PcRecord.Extends ⟨p, 0⟩ q ↔ Consecutive p q := by
  simp only [PcRecord.Extends, Consecutive]
  rw [show p + BitVec.setWidth 32 (0 : BitVec 8) = p by simp]
  exact eq_comm

/-- The runs are handed out in the order of the trace exactly if none has two pcs. -/
theorem handedOut_runs_iff {p : BitVec 32} {pcs : List (BitVec 32)} (hp : WordAligned p)
    (hp0 : p ≠ 0) (h : ∀ pc ∈ pcs, WordAligned pc ∧ pc ≠ 0) :
    (runs ⟨p, 0⟩ pcs).flatMap PcRecord.handedOut = p :: pcs ↔
      List.IsChain (fun a b => ¬ Consecutive a b) (p :: pcs) := by
  induction pcs generalizing p with
  | nil =>
    rw [runs, flush_of_ne hp0]
    simp [PcRecord.handedOut, descend]
  | cons q pcs ih =>
    have hq := h q List.mem_cons_self
    have hrest : ∀ pc ∈ pcs, WordAligned pc ∧ pc ≠ 0 :=
      fun pc hpc => h pc (List.mem_cons_of_mem _ hpc)
    rw [List.isChain_cons_cons]
    by_cases hext : Consecutive p q
    · -- the pair becomes one record and its second pc is handed out first
      obtain ⟨rest, hruns⟩ := runs_of_pair hp hp0 (fun pc hpc => (hrest pc hpc).1)
      refine iff_of_false ?_ (fun hchain => hchain.1 hext)
      intro heq
      rw [runs, if_pos (extends_single.mpr hext)] at heq
      change List.flatMap _ (runs ⟨p, 1⟩ pcs) = _ at heq
      rw [hruns, List.flatMap_cons] at heq
      have hhead := List.head_eq_of_cons_eq heq
      simp [ONE_PC_STEP] at hhead
    · have hsingle : PcRecord.handedOut ⟨p, 0⟩ = [p] := rfl
      rw [runs, if_neg (fun hx => hext (extends_single.mp hx)), @flush_of_ne ⟨p, 0⟩ hp0,
        List.singleton_append, List.flatMap_cons, hsingle, List.singleton_append, List.cons.injEq,
        ih hq.1 hq.2 hrest]
      simp [hext]

theorem total_runs_single {p : BitVec 32} {pcs : List (BitVec 32)}
    (h : ∀ pc ∈ p :: pcs, WordAligned pc ∧ pc ≠ 0) :
    total (runs ⟨p, 0⟩ pcs) = (p :: pcs).length := by
  have hp := h p List.mem_cons_self
  rw [@total_runs ⟨p, 0⟩ pcs (short_single hp.1) hp.2
    (fun pc hpc => h pc (List.mem_cons_of_mem _ hpc))]
  simp
  omega

theorem flush_zero (count : BitVec 8) : PcRecord.flush ⟨0, count⟩ = [] := if_neg fun h => h rfl

/-- A trace that starts with pc 4 extends the run of the initial record, which is never
saved. -/
theorem load_first_four {pcs : List (BitVec 32)} (hlen : (4 :: pcs).length < 2 ^ 64)
    (h : ∀ pc ∈ pcs, WordAligned pc ∧ pc ≠ 0) :
    load (fileOf (4 :: pcs).length (runs ⟨0, 0⟩ (4 :: pcs))) ≠ some (4 :: pcs) := by
  have hfirst : runs ⟨0, 0⟩ (4 :: pcs) = runs ⟨0, 1⟩ pcs := by
    rw [runs, if_pos (show PcRecord.Extends ⟨0, 0⟩ 4 by decide)]
    rfl
  rw [hfirst]
  cases pcs with
  | nil =>
    -- no record at all: the only pick is the initial zero
    rw [runs, flush_zero, load_nil]
    decide +kernel
  | cons q pcs =>
    -- one pc less in the records than the header announces
    have hext := PcRecord.not_extends_pair (show WordAligned 0 by decide) (h q List.mem_cons_self).1
    have htotal := total_runs_single h
    rw [runs, if_neg hext, flush_zero, List.nil_append]
    simp only [List.length_cons] at hlen htotal ⊢
    rw [load_eq (by omega) hlen (by omega), if_neg (by omega)]
    simp

theorem load_runs {p : BitVec 32} {pcs : List (BitVec 32)} (hlen : (p :: pcs).length < 2 ^ 64)
    (hp4 : p ≠ 4) (h : ∀ pc ∈ p :: pcs, WordAligned pc ∧ pc ≠ 0) :
    load (fileOf (p :: pcs).length (runs ⟨0, 0⟩ (p :: pcs))) =
      some ((runs ⟨p, 0⟩ pcs).flatMap PcRecord.handedOut) := by
  have hext : ¬ PcRecord.Extends ⟨0, 0⟩ p := fun hext => hp4 (extends_single.mp hext)
  have htotal := total_runs_single h
  have hpos : 0 < total (runs ⟨p, 0⟩ pcs) := by
    rw [htotal]
    exact Nat.succ_pos _
  rw [runs, if_neg hext, flush_zero, List.nil_append, load_eq hpos hlen htotal.le, if_pos htotal]

/-- Adding an aligned trace never fails.  It comes back unchanged exactly if its length
fits the header and no pc directly follows its predecessor, where the first pc has the
initial zero for predecessor. -/
theorem roundTrip_eq_iff (pcs : List (BitVec 32)) (h : ∀ pc ∈ pcs, WordAligned pc ∧ pc ≠ 0) :
    (create.addAll pcs).isSome ∧
      (roundTrip pcs = some pcs ↔
        pcs.length < 2 ^ 64 ∧ List.IsChain (fun a b => ¬ Consecutive a b) (0 :: pcs)) := by
  have haligned : ∀ pc ∈ pcs, WordAligned pc := fun pc hpc => (h pc hpc).1
  refine ⟨addAll_isSome haligned, ?_⟩
  rw [roundTrip, save_eq haligned]
  simp only [Option.bind_eq_bind, Option.bind_some]
  by_cases hlen : pcs.length < 2 ^ 64
  · cases pcs with
    | nil =>
      refine iff_of_true ?_ ⟨hlen, List.isChain_singleton 0⟩
      decide +kernel
    | cons p pcs =>
      have hp := h p List.mem_cons_self
      rw [List.isChain_cons_cons]
      -- the writer starts with the record of pc 0, which a first pc of 4 extends
      by_cases hp4 : p = 4
      · subst hp4
        exact iff_of_false
          (load_first_four hlen fun pc hpc => h pc (List.mem_cons_of_mem _ hpc))
          (fun hchain => hchain.2.1 rfl)
      · have hne : ¬ Consecutive 0 p := hp4
        rw [load_runs hlen hp4 h, Option.some.injEq, handedOut_runs_iff hp.1 hp.2
          fun pc hpc => h pc (List.mem_cons_of_mem _ hpc)]
        exact ⟨fun hchain => ⟨hlen, hne, hchain⟩, fun hchain => hchain.2.2⟩
  · refine iff_of_false ?_ (fun hchain => hlen hchain.1)
    intro heq
    -- the announced size is the length modulo 2^64
    have hmod := length_load heq
    omega

/-- Two pcs that do not follow each other come back in order. -/
theorem roundTrip_eq_iff_branch :
    roundTrip [0x80000000#32, 0x80000008#32] = some [0x80000000#32, 0x80000008#32] :=
  (roundTrip_eq_iff [0x80000000#32, 0x80000008#32] (by simp [WordAligned])).2.mpr
    ⟨by simp, by simp [Consecutive, ONE_PC_STEP]⟩

/-- Two consecutive pcs come back in the wrong order, and a first pc of 4 is lost. -/
theorem consecutive_pcs_reversed :
    roundTrip [0x80000000#32, 0x80000004#32] = some [0x80000004#32, 0x80000000#32] ∧
      roundTrip [4#32] = some [0#32] ∧ roundTrip [4#32, 8#32] = none := by
  decide +kernel

end ItracePack

end Cachesim
end Jyd
