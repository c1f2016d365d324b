import Jyd.Hdl.BitField
import Jyd.Hdl.CacheHistory
import Jyd.Nemu.ProfileDCache
import Jyd.Soc.RamAccess

/-!
# ProfileCache — the profiler's shadow of the data cache against the data cache

The shadow `rtl_dcache` of the profiler replays the loads and stores of the core.  The cache
has two banks of 512 lines, the shadow has 512 lines in all, so two lines of the cache that
differ in address bit 11 only share one line of the shadow.
-/

namespace Jyd
namespace Soc
namespace JYDSoC

open Hdl Jyd.Core Nemu.Profile

/-! ## Accesses -/

/-- The load or store that an instruction in EXU is. -/
def accessOf (d : DecodedInst) : Access where
  isLoad := EXU.isTypLoad d
  addr := EXU.reg1AddImm d
  width := memoryWidth d.code (EXU.isTypLoad d)

/-- The accesses that leave their line valid once they are done. -/
def allocates (a : Access) : Bool := a.isLoad || a.width == .word

def cacheIndex (a : Access) : BitVec 10 := DCache.indexOf a.addr
def cacheTag (a : Access) : BitVec 7 := DCache.tagOf a.addr
def shadowIndex (a : Access) : BitVec 9 := dcacheIndex a.addr

section Run

variable {c : Config} (R : Run (machine c))

def accessIn (t : ℕ) : Access := accessOf (R.state t).core.exuPipe.bits

/-- The accesses before cycle `t`, the newest first. -/
def accessesBefore : ℕ → List Access
  | 0 => []
  | t + 1 => if accessAt R t then accessIn R t :: accessesBefore t else accessesBefore t

/-- The answer of the tag memory to the instruction in EXU. -/
def cacheHits (t : ℕ) : Bool :=
  (CPUCore.exuIn (R.state t).core (coreIn c (R.input t) (R.state t))).dcacheHit

def missesAt (t : ℕ) : Bool := loadsAt R t && !cacheHits R t

/-- Before cycle `T` there are only aligned loads and stores of the data RAM, and the refill of
every miss is in the cache when the next access is made. -/
structure SpacedAccesses (T : ℕ) : Prop where
  ordinary : ∀ t < T, (requestAt R t).valid = true →
    EXU.needMemReq (R.state t).core.exuPipe.bits = true
  natural : ∀ t < T, accessAt R t = true →
    proposedEligible (accessIn R t).addr (accessIn R t).width = true
  landed : ∀ t < T, missesAt R t = true → ∀ u < T, t < u → u ≤ t + 2 → accessAt R u = false

end Run

/-! ## The shadow -/

/-- The shadow after a history. -/
def shadowAfter : List Access → RtlDcache
  | [] => RtlDcache.zero
  | a :: h => ((shadowAfter h).record a).2

def Eligible (a : Access) : Prop := proposedEligible a.addr a.width = true

theorem dcacheTag_eq (a : Word) : dcacheTag a = (DCache.tagOf a).setWidth 8 := by
  rw [dcacheTag, shiftRight_and_mask a 0x7f#32 11 (k := 7) (by decide), BitVec.setWidth_setWidth_of_le]
  · rfl
  · decide

theorem dcacheTag_eq_iff {a b : Word} :
    dcacheTag a = dcacheTag b ↔ DCache.tagOf a = DCache.tagOf b := by
  rw [dcacheTag_eq, dcacheTag_eq]
  refine ⟨fun h => ?_, fun h => by rw [h]⟩
  have hnat := congrArg BitVec.toNat h
  have ha := (DCache.tagOf a).isLt
  have hb := (DCache.tagOf b).isLt
  rw [BitVec.toNat_setWidth, BitVec.toNat_setWidth, Nat.mod_eq_of_lt (by omega),
    Nat.mod_eq_of_lt (by omega)] at hnat
  exact BitVec.eq_of_toNat_eq hnat

/-- An entry that was just written. -/
theorem dcacheHit_update (table : DCacheTable) (x a : Word) (valid : Bool) (tag : BitVec 8) :
    dcacheHit (Function.update table (dcacheIndex x) ⟨tag, valid⟩) a =
      if dcacheIndex x = dcacheIndex a then valid && tag == dcacheTag a else dcacheHit table a := by
  rw [dcacheHit]
  by_cases hk : dcacheIndex x = dcacheIndex a
  · rw [if_pos hk, ← hk, Function.update_self]
  · rw [if_neg hk, Function.update_of_ne (Ne.symm hk)]
    rfl

theorem shadow_hit {h : List Access} (hh : ∀ x ∈ h, Eligible x) (a : Word) :
    dcacheHit (shadowAfter h).table a =
      holdsTag shadowIndex cacheTag allocates h (dcacheIndex a) (DCache.tagOf a) := by
  induction h generalizing a with
  | nil => rfl
  | cons x h ih =>
    have hx : Eligible x := hh x List.mem_cons_self
    have hdram : dcacheable x.addr = true := ((Bool.and_eq_true _ _).mp hx).1
    have hbefore := ih fun y hy => hh y (List.mem_cons_of_mem _ hy)
    -- a write of the entry of `x` against the history
    have hwrite : ∀ tag : BitVec 8, (allocates x = true → tag = dcacheTag x.addr) →
        dcacheHit (Function.update (shadowAfter h).table (dcacheIndex x.addr) ⟨tag, allocates x⟩) a =
          holdsTag shadowIndex cacheTag allocates (x :: h) (dcacheIndex a) (DCache.tagOf a) := by
      intro tag htag
      rw [dcacheHit_update]
      by_cases hk : dcacheIndex x.addr = dcacheIndex a
      · have hself : holdsTag shadowIndex cacheTag allocates (x :: h) (shadowIndex x) (DCache.tagOf a) =
            (allocates x && decide (cacheTag x = DCache.tagOf a)) := holdsTag_cons_self
        rw [if_pos hk, ← hk]
        refine Eq.trans ?_ hself.symm
        cases halloc : allocates x with
        | false => rfl
        | true =>
          rw [htag halloc, Bool.true_and, Bool.true_and, Bool.eq_iff_iff, beq_iff_eq,
            decide_eq_true_eq]
          exact dcacheTag_eq_iff
      · rw [if_neg hk, hbefore, holdsTag_cons_of_ne (show shadowIndex x ≠ _ from hk)]
    rw [shadowAfter, RtlDcache.record]
    cases hload : x.isLoad with
    | true =>
      have halloc : allocates x = true := by rw [allocates, hload, Bool.true_or]
      rw [if_pos rfl, dcacheLoad, show proposedEligible x.addr x.width = true from hx]
      cases hhit : dcacheHit (shadowAfter h).table x.addr with
      | true =>
        rw [hbefore] at hhit
        exact (hbefore a).trans (holdsTag_cons_of_hit halloc hhit).symm
      | false =>
        rw [← hwrite (dcacheTag x.addr) fun _ => rfl, halloc]
        rfl
    | false =>
      rw [if_neg Bool.false_ne_true, rtlDcacheStore, hdram]
      by_cases hword : x.width = .word
      · have halloc : allocates x = true := by rw [allocates, hword]; exact Bool.or_true _
        rw [← hwrite (dcacheTag x.addr) fun _ => rfl, halloc, if_neg (by decide), if_pos hword]
        rfl
      · have halloc : allocates x = false := by
          rw [allocates, hload, Bool.false_or]
          exact beq_false_of_ne hword
        rw [← hwrite ((shadowAfter h).table (dcacheIndex x.addr)).tag
          fun htrue => absurd (halloc.symm.trans htrue) (by decide), halloc, if_neg (by decide),
          if_neg hword]

/-! ## Widths -/

theorem inDramRegion_eq (x : Word) : EXU.inDramRegion x = dcacheable x := by
  have hfield : ∀ e : BitVec 2, (e == 0b01#2) = (e.setWidth 32 == 1#32) := by decide
  rw [dcacheable, shiftRight_and_mask x 3#32 20 (k := 2) (by decide), EXU.inDramRegion, hfield]

/-- The width a function code selects. -/
def widthOf (func3 : BitVec 3) (load : Bool) : MemWidth :=
  if func3 = 0#3 ∨ (load = true ∧ func3 = 4#3) then .byte
  else if func3 = 1#3 ∨ (load = true ∧ func3 = 5#3) then .half
  else if func3 = 2#3 then .word
  else .other

theorem memoryWidth_eq (x : Word) (load : Bool) :
    memoryWidth x load = widthOf (x.extractLsb' 12 3) load := by
  have hall : ∀ (func3 : BitVec 3) (load : Bool),
      (if func3.setWidth 32 = 0#32 ∨ (load = true ∧ func3.setWidth 32 = 4#32) then MemWidth.byte
        else if func3.setWidth 32 = 1#32 ∨ (load = true ∧ func3.setWidth 32 = 5#32) then .half
        else if func3.setWidth 32 = 2#32 then .word else .other) = widthOf func3 load := by
    decide
  rw [memoryWidth, shiftRight_and_mask x 7#32 12 (k := 3) (by decide)]
  exact hall _ _

theorem alignedForWidth_eq (x : Word) (width : MemWidth) :
    alignedForWidth x width = match width with
      | .byte => true
      | .half => !(x.extractLsb' 0 2).getLsbD 0
      | .word => x.extractLsb' 0 2 == 0#2
      | .other => false := by
  have hzero : x >>> 0 = x := BitVec.ushiftRight_zero x
  cases width with
  | byte => rfl
  | other => rfl
  | half =>
    have hfield : ∀ e : BitVec 1, (e.setWidth 32 == 0#32) = !e.getLsbD 0 := by decide
    have hand := shiftRight_and_mask x 1#32 0 (k := 1) (by decide)
    rw [hzero] at hand
    rw [alignedForWidth, hand, hfield, BitVec.getLsbD_extractLsb', BitVec.getLsbD_extractLsb']
    rfl
  | word =>
    have hfield : ∀ e : BitVec 2, (e.setWidth 32 == 0#32) = (e == 0#2) := by decide
    have hand := shiftRight_and_mask x 3#32 0 (k := 2) (by decide)
    rw [hzero] at hand
    rw [alignedForWidth, hand, hfield]

/-- An aligned load of the data RAM is cacheable. -/
theorem cacheableLoad_of_eligible {d : DecodedInst} (hload : EXU.isTypLoad d = true)
    (h : Eligible (accessOf d)) : EXU.cacheableLoad d = true := by
  have hall : ∀ (func3 : BitVec 3) (low : BitVec 2),
      (match widthOf func3 true with
        | .byte => true
        | .half => !low.getLsbD 0
        | .word => low == 0#2
        | .other => false) = true →
      supportedLoadWidth func3 = true ∧
        (if func3.getLsbD 1 then low == 0#2 else if func3.getLsbD 0 then !low.getLsbD 0 else true) =
          true := by
    decide
  rcases (Bool.and_eq_true _ _).mp h with ⟨hdram, haligned⟩
  have hdram : dcacheable (EXU.reg1AddImm d) = true := hdram
  have haligned : alignedForWidth (EXU.reg1AddImm d) (memoryWidth d.code (EXU.isTypLoad d)) = true :=
    haligned
  rw [hload, memoryWidth_eq, alignedForWidth_eq] at haligned
  rcases hall _ _ haligned with ⟨hwidth, halign⟩
  have hlow : ((EXU.reg1AddImm d).extractLsb' 0 2).getLsbD 0 = (EXU.reg1AddImm d).getLsbD 0 := by
    rw [BitVec.getLsbD_extractLsb']
    rfl
  have halign : EXU.loadAddressAligned d = true := by
    rw [hlow] at halign
    exact halign
  have hwidth : supportedLoadWidth (EXU.func3t d) = true := hwidth
  rw [EXU.cacheableLoad, hload, hwidth, halign, inDramRegion_eq, hdram]
  rfl

/-- An aligned store writes all four bytes exactly when it is a word store. -/
theorem full_mask_iff {d : DecodedInst} (hload : EXU.isTypLoad d = false)
    (h : Eligible (accessOf d)) :
    (EXU.memWMask d == 0b1111#4) = allocates (accessOf d) := by
  have hall : ∀ (func3 : BitVec 3) (low : BitVec 2),
      (match widthOf func3 false with
        | .byte => true
        | .half => !low.getLsbD 0
        | .word => low == 0#2
        | .other => false) = true →
      (GenMemWMask low func3 == 0b1111#4) = (false || widthOf func3 false == .word) := by
    decide
  have haligned : alignedForWidth (EXU.reg1AddImm d) (memoryWidth d.code (EXU.isTypLoad d)) = true :=
    ((Bool.and_eq_true _ _).mp h).2
  rw [hload, memoryWidth_eq, alignedForWidth_eq] at haligned
  have hmask := hall _ _ haligned
  rw [allocates, accessOf, hload, memoryWidth_eq]
  exact hmask

/-! ## The cache along a run -/

section Tags

variable {c : Config} {R : Run (machine c)} {T t : ℕ} (hs : SpacedAccesses R T)

theorem needMemReq_of_accessAt (h : accessAt R t = true) :
    CPUCore.exuInValid (R.state t).core = true ∧
      EXU.needMemReq (R.state t).core.exuPipe.bits = true := by
  simp only [accessAt, Bool.and_eq_true] at h
  exact ⟨CPUCore.exuInValid_of_inFire h.1, h.2⟩

theorem queryAddr_of_accessAt (h : accessAt R t = true) :
    CPUCore.dcacheQueryAddr (R.state t).core = (accessIn R t).addr := by
  rcases needMemReq_of_accessAt h with ⟨hv, hmem⟩
  have hnolist := (not_accelerator_of_needMemReq (frontInv R t) hv hmem).2.1
  simp [CPUCore.dcacheQueryAddr, EXU.dcacheQueryAddr, hnolist, accessIn, accessOf]

theorem cacheHits_of_accessAt (h : accessAt R t = true) :
    cacheHits R t =
      DCache.hit (R.state t).core.dcache (cacheIndex (accessIn R t)) (cacheTag (accessIn R t)) := by
  have haddr := queryAddr_of_accessAt h
  simp only [cacheHits, CPUCore.exuIn, haddr]
  rfl

include hs

/-- Nothing but stores and refills writes the cache. -/
theorem not_pendingStore (ht : t ≤ T) : pendingStore (R.state t).core = false := by
  cases t with
  | zero => exact not_pending_of_idle R.init.core.exu.listReverseState
  | succ t =>
    refine Bool.eq_false_iff.mpr fun hp => ?_
    rw [R.step t] at hp
    rcases pendingStore_next (frontInv R t) hp with ⟨hstate, hv, _⟩
    have hidle := not_busy_of_needMemReq (frontInv R t) (hs.ordinary t (by omega) hv)
    simp [EXU.busy, hstate] at hidle

theorem storeUpdate_at (ht : t < T) :
    CPUCore.storeUpdate (R.state t).core (coreIn c (R.input t) (R.state t)) = storesAt R t := by
  rw [storeUpdate_eq, Bool.eq_iff_iff]
  simp only [storesAt, EXU.cacheableStore, Bool.and_eq_true]
  constructor
  · rintro ⟨hv, hstore, _⟩
    have hmem : EXU.needMemReq (R.state t).core.exuPipe.bits = true := by
      simp [EXU.needMemReq, hstore]
    exact ⟨completes_of_request (frontInv R t) hv hmem, hstore⟩
  · rintro ⟨hfire, hstore⟩
    have hmem : EXU.needMemReq (R.state t).core.exuPipe.bits = true := by
      simp [EXU.needMemReq, hstore]
    have hacc : accessAt R t = true := by simp [accessAt, hfire, hmem]
    have hdram := ((Bool.and_eq_true _ _).mp (hs.natural t ht hacc)).1
    exact ⟨request_of_completes hfire hmem, hstore, (inDramRegion_eq _).trans hdram⟩

theorem mutation_at (ht : t < T) :
    CPUCore.dcacheStoreMutation (R.state t).core (coreIn c (R.input t) (R.state t)) =
      storesAt R t := by
  rw [CPUCore.dcacheStoreMutation, storeUpdate_at hs ht, fullUpdate_eq,
    not_pendingStore hs (by omega), Bool.or_false]

theorem epoch_at (ht : t < T) :
    (R.state (t + 1)).core.dcacheStoreEpoch =
      if storesAt R t then !(R.state t).core.dcacheStoreEpoch
      else (R.state t).core.dcacheStoreEpoch := by
  rw [R.step t, ← mutation_at hs ht]
  rfl

omit hs in
variable (R t) in
/-- A load missed `n` cycles ago. -/
def missedAgo (n : ℕ) : Bool := decide (n ≤ t) && missesAt R (t - n)

omit hs in
theorem not_stores_of_misses (h : missesAt R t = true) : storesAt R t = false := by
  simp only [missesAt, loadsAt, Bool.and_eq_true] at h
  have hload : (R.state t).core.exuPipe.bits.info.typ = .load := by
    simpa [EXU.isTypLoad] using h.1.2
  simp [storesAt, EXU.isTypStore, hload]

omit hs in
theorem access_of_stores (h : storesAt R t = true) : accessAt R t = true := by
  simp only [storesAt, Bool.and_eq_true] at h
  simp [accessAt, h.1, EXU.needMemReq, h.2]

omit hs in
theorem access_of_misses (h : missesAt R t = true) : accessAt R t = true := by
  simp only [missesAt, loadsAt, Bool.and_eq_true] at h
  simp [accessAt, h.1.1, EXU.needMemReq, h.1.2]

/-- No store comes between a miss and its refill. -/
theorem epoch_of_misses {u : ℕ} (ht : u + 2 < T) (hmiss : missesAt R u = true) :
    (R.state (u + 2)).core.dcacheStoreEpoch = (R.state u).core.dcacheStoreEpoch := by
  have hsilent : storesAt R (u + 1) = false := Bool.eq_false_iff.mpr fun hstore => by
    have hacc := hs.landed u (by omega) hmiss (u + 1) (by omega) (by omega) (by omega)
    exact Bool.false_ne_true (hacc.symm.trans (access_of_stores hstore))
  have hfirst := epoch_at hs (t := u) (by omega)
  have hsecond := epoch_at hs (t := u + 1) (by omega)
  rw [not_stores_of_misses hmiss, if_neg Bool.false_ne_true] at hfirst
  rw [hsilent, if_neg Bool.false_ne_true] at hsecond
  exact hsecond.trans hfirst

omit hs in
theorem wbuDcacheUpdate_at (u : ℕ) :
    CPUCore.wbuDcacheUpdate (R.state (u + 2)).core =
      (completesAt R u && EXU.cacheableLoad (R.state u).core.exuPipe.bits &&
        !(EXU.cacheableLoad (R.state u).core.exuPipe.bits && cacheHits R u) &&
        (R.state u).core.dcacheStoreEpoch == (R.state (u + 2)).core.dcacheStoreEpoch) := by
  rw [CPUCore.wbuDcacheUpdate, WBU.dcacheUpdate, wbuPipe_at, lsuPipe_at]
  rfl

/-- WBU refills the line of the load that missed two cycles ago. -/
theorem refill_at (ht : t < T) : CPUCore.wbuDcacheUpdate (R.state t).core = missedAgo R t 2 := by
  match t with
  | 0 => simp [CPUCore.wbuDcacheUpdate, WBU.dcacheUpdate, R.init.core.wbuPipe, missedAgo]
  | 1 =>
    rw [CPUCore.wbuDcacheUpdate, WBU.dcacheUpdate, wbuPipe_at]
    simp [R.init.core.lsuPipe, missedAgo]
  | u + 2 =>
    have hago : missedAgo R (u + 2) 2 = missesAt R u := by simp [missedAgo]
    rw [hago, wbuDcacheUpdate_at]
    cases hmiss : missesAt R u with
    | false =>
      refine Bool.eq_false_iff.mpr fun htrue => ?_
      simp only [Bool.and_eq_true, Bool.not_eq_true'] at htrue
      have hload : EXU.isTypLoad (R.state u).core.exuPipe.bits = true := by
        have hcacheable := htrue.1.1.2
        simp only [EXU.cacheableLoad, Bool.and_eq_true] at hcacheable
        exact hcacheable.1.1.1
      have hnohit : cacheHits R u = false := by
        have hhit := htrue.1.2
        rwa [htrue.1.1.2, Bool.true_and] at hhit
      simp [missesAt, loadsAt, htrue.1.1.1, hload, hnohit] at hmiss
    | true =>
      have hparts := hmiss
      simp only [missesAt, loadsAt, Bool.and_eq_true, Bool.not_eq_true'] at hparts
      have hcacheable := cacheableLoad_of_eligible hparts.1.2
        (hs.natural u (by omega) (access_of_misses hmiss))
      rw [hparts.1.1, hcacheable, hparts.2, epoch_of_misses hs ht hmiss, beq_self_eq_true]
      rfl

omit hs in
theorem dcache_succ (t : ℕ) :
    (R.state (t + 1)).core.dcache = DCache.next (R.state t).core.dcache
      (CPUCore.dcacheIn (R.state t).core (coreIn c (R.input t) (R.state t))) := by
  rw [R.step t]
  rfl

/-- A store selects its line for itself. -/
theorem hit_succ_of_store (ht : t < T) (hw : storesAt R t = true) (k : BitVec 10) (tag : BitVec 7) :
    DCache.hit (R.state (t + 1)).core.dcache k tag =
      if k = cacheIndex (accessIn R t) then
        allocates (accessIn R t) && decide (cacheTag (accessIn R t) = tag)
      else DCache.hit (R.state t).core.dcache k tag := by
  have hacc := access_of_stores hw
  have haddr := queryAddr_of_accessAt hacc
  have hstore := (storeUpdate_at hs ht).trans hw
  have hnoload : EXU.isTypLoad (R.state t).core.exuPipe.bits = false := by
    simp only [storesAt, EXU.isTypStore, Bool.and_eq_true, beq_iff_eq] at hw
    simp [EXU.isTypLoad, hw.2]
  have hfull : EXU.storeFull (R.state t).core.exu
      (CPUCore.exuIn (R.state t).core (coreIn c (R.input t) (R.state t))) =
        allocates (accessIn R t) := by
    have hmask := full_mask_iff hnoload (hs.natural t ht hacc)
    rw [EXU.storeFull]
    exact (congrArg₂ _ hstore hmask).trans (Bool.true_and _)
  have hwrites : DCache.writes
      (CPUCore.dcacheIn (R.state t).core (coreIn c (R.input t) (R.state t))) = true := by
    rw [DCache.writes, CPUCore.dcacheIn, hstore, Bool.true_or]
  have hindex : DCache.writeIndex
      (CPUCore.dcacheIn (R.state t).core (coreIn c (R.input t) (R.state t))) =
        cacheIndex (accessIn R t) := by
    rw [DCache.writeIndex, CPUCore.dcacheIn, hstore, if_pos rfl, haddr]
    rfl
  have hdata : DCache.tagWriteData
      (CPUCore.dcacheIn (R.state t).core (coreIn c (R.input t) (R.state t))) =
        cacheTag (accessIn R t) ++ BitVec.ofBool (allocates (accessIn R t)) := by
    rw [DCache.tagWriteData, CPUCore.dcacheIn, hstore, if_pos rfl, haddr, hfull]
    rfl
  rw [dcache_succ, DCache.hit_next, hwrites, hindex, hdata, DCache.tagWord_valid,
    DCache.tagWord_tag]
  simp only [true_and]
  rfl

/-- Without a store only the refill of an earlier miss enters the cache. -/
theorem hit_succ_of_no_store (ht : t < T) (hw : storesAt R t = false) (k : BitVec 10)
    (tag : BitVec 7) :
    DCache.hit (R.state (t + 1)).core.dcache k tag =
      if missedAgo R t 2 = true ∧ k = cacheIndex (accessIn R (t - 2)) then
        decide (cacheTag (accessIn R (t - 2)) = tag)
      else DCache.hit (R.state t).core.dcache k tag := by
  have hstore := (storeUpdate_at hs ht).trans hw
  have hmutation := (mutation_at hs ht).trans hw
  have hpend : CPUCore.fullUpdate (R.state t).core (coreIn c (R.input t) (R.state t)) = false :=
    not_pendingStore hs (by omega)
  have hwrites : DCache.writes
      (CPUCore.dcacheIn (R.state t).core (coreIn c (R.input t) (R.state t))) = missedAgo R t 2 := by
    rw [DCache.writes, CPUCore.dcacheIn, hstore, hpend, hmutation, refill_at hs ht]
    simp
  rw [dcache_succ, DCache.hit_next, hwrites]
  by_cases hago : missedAgo R t 2 = true
  · obtain ⟨u, rfl⟩ : ∃ u, t = u + 2 := by
      simp only [missedAgo, Bool.and_eq_true, decide_eq_true_eq] at hago
      exact ⟨t - 2, by omega⟩
    have haddr : (R.state (u + 2)).core.wbuPipe.bits.memAddr = (accessIn R u).addr := by
      rw [wbuPipe_at, lsuPipe_at]
      rfl
    have hindex : DCache.writeIndex
        (CPUCore.dcacheIn (R.state (u + 2)).core (coreIn c (R.input (u + 2)) (R.state (u + 2)))) =
          cacheIndex (accessIn R u) := by
      rw [DCache.writeIndex, CPUCore.dcacheIn, hstore, hpend]
      simp only [Bool.false_eq_true, if_false, haddr]
      rfl
    have hdata : DCache.tagWriteData
        (CPUCore.dcacheIn (R.state (u + 2)).core (coreIn c (R.input (u + 2)) (R.state (u + 2)))) =
          cacheTag (accessIn R u) ++ BitVec.ofBool true := by
      rw [DCache.tagWriteData, CPUCore.dcacheIn, hstore, hpend]
      simp only [Bool.false_eq_true, if_false, haddr]
      rfl
    rw [hindex, hdata, DCache.tagWord_valid, DCache.tagWord_tag, Nat.add_sub_cancel, Bool.true_and]
    rfl
  · rw [if_neg fun h => hago h.1, if_neg fun h => hago h.1]

end Tags

/-! ## The cache as a function of the accesses -/

section Replay

variable {c : Config} {R : Run (machine c)} {T t : ℕ}

variable (R t) in
/-- The accesses whose effect is in the cache in cycle `t`. -/
def landedBefore : List Access :=
  if missedAgo R t 1 then accessesBefore R (t - 1)
  else if missedAgo R t 2 then accessesBefore R (t - 2)
  else accessesBefore R t

theorem missedAgo_one : missedAgo R (t + 1) 1 = missesAt R t := by simp [missedAgo]

theorem missedAgo_two : missedAgo R (t + 1) 2 = missedAgo R t 1 := by
  rw [missedAgo, missedAgo]
  congr 1
  exact decide_eq_decide.mpr (by omega)

theorem landedBefore_succ :
    landedBefore R (t + 1) =
      if missesAt R t then accessesBefore R t
      else if missedAgo R t 1 then accessesBefore R (t - 1)
      else accessesBefore R (t + 1) := by
  have hsub : t + 1 - 2 = t - 1 := by omega
  rw [landedBefore, missedAgo_one, missedAgo_two, Nat.add_sub_cancel, hsub]

theorem accessesBefore_succ (h : accessAt R t = true) :
    accessesBefore R (t + 1) = accessIn R t :: accessesBefore R t := if_pos h

theorem accessesBefore_succ_of_no_access (h : accessAt R t = false) :
    accessesBefore R (t + 1) = accessesBefore R t := by
  rw [accessesBefore, h]
  rfl

variable (hs : SpacedAccesses R T)

include hs

theorem not_missedAgo_of_access (ht : t < T) (hacc : accessAt R t = true) {n : ℕ} (hn : 0 < n)
    (hn2 : n ≤ 2) : missedAgo R t n = false := by
  refine Bool.eq_false_iff.mpr fun hago => ?_
  simp only [missedAgo, Bool.and_eq_true, decide_eq_true_eq] at hago
  have hno := hs.landed (t - n) (by omega) hago.2 t ht (by omega) (by omega)
  exact Bool.false_ne_true (hno.symm.trans hacc)

theorem landedBefore_of_access (ht : t < T) (hacc : accessAt R t = true) :
    landedBefore R t = accessesBefore R t := by
  rw [landedBefore, not_missedAgo_of_access hs ht hacc (by decide) (by decide),
    not_missedAgo_of_access hs ht hacc (by decide) (by decide)]
  rfl

omit hs in
theorem allocates_of_misses (h : missesAt R t = true) : allocates (accessIn R t) = true := by
  simp only [missesAt, loadsAt, Bool.and_eq_true] at h
  simp [allocates, accessIn, accessOf, h.1.2]

omit hs in
theorem not_misses_of_no_access (h : accessAt R t = false) : missesAt R t = false :=
  Bool.eq_false_iff.mpr fun hmiss => Bool.false_ne_true (h.symm.trans (access_of_misses hmiss))

omit hs in
theorem loads_of_access (hacc : accessAt R t = true) (hw : storesAt R t = false) :
    loadsAt R t = true := by
  simp only [accessAt, EXU.needMemReq, Bool.and_eq_true, Bool.or_eq_true] at hacc
  simp only [storesAt, hacc.1, Bool.true_and] at hw
  rcases hacc.2 with hload | hstore
  · simp [loadsAt, hacc.1, hload]
  · exact absurd (hw.symm.trans hstore) (by decide)

/-- After a refill its load is the last access. -/
theorem accessesBefore_of_refill {u : ℕ} (ht : u + 2 < T) (hmiss : missesAt R u = true) :
    accessesBefore R (u + 3) = accessIn R u :: accessesBefore R u := by
  have hnext := hs.landed u (by omega) hmiss (u + 1) (by omega) (by omega) (by omega)
  have hthen := hs.landed u (by omega) hmiss (u + 2) (by omega) (by omega) (by omega)
  rw [accessesBefore_succ_of_no_access hthen, accessesBefore_succ_of_no_access hnext,
    accessesBefore_succ (access_of_misses hmiss)]

theorem hit_succ_of_access (ht : t < T) (hacc : accessAt R t = true)
    (hbefore : ∀ k tag, DCache.hit (R.state t).core.dcache k tag =
      holdsTag cacheIndex cacheTag allocates (accessesBefore R t) k tag) (k : BitVec 10)
    (tag : BitVec 7) :
    DCache.hit (R.state (t + 1)).core.dcache k tag =
      holdsTag cacheIndex cacheTag allocates
        (if missesAt R t then accessesBefore R t else accessIn R t :: accessesBefore R t) k tag := by
  cases hw : storesAt R t with
  | true =>
    have hmiss : missesAt R t = false := Bool.eq_false_iff.mpr fun hmiss =>
      Bool.false_ne_true ((not_stores_of_misses hmiss).symm.trans hw)
    rw [hit_succ_of_store hs ht hw, hmiss, if_neg Bool.false_ne_true]
    by_cases hk : k = cacheIndex (accessIn R t)
    · rw [if_pos hk, hk, holdsTag_cons_self]
    · rw [if_neg hk, holdsTag_cons_of_ne (Ne.symm hk), hbefore]
  | false =>
    have hago := not_missedAgo_of_access hs ht hacc (n := 2) (by decide) (by decide)
    have hload := loads_of_access hacc hw
    rw [hit_succ_of_no_store hs ht hw, hago, if_neg fun h => Bool.false_ne_true h.1, hbefore]
    cases hmiss : missesAt R t with
    | true => rfl
    | false =>
      -- a load that hits finds its own line
      have hhit : cacheHits R t = true := by
        simpa [missesAt, hload] using hmiss
      rw [cacheHits_of_accessAt hacc, hbefore] at hhit
      have halloc : allocates (accessIn R t) = true := by
        simp only [loadsAt, Bool.and_eq_true] at hload
        simp [allocates, accessIn, accessOf, hload.2]
      rw [if_neg Bool.false_ne_true, holdsTag_cons_of_hit halloc hhit]

/-- The tags are those of the accesses that have landed. -/
theorem hit_eq_holdsTag (ht : t ≤ T) (k : BitVec 10) (tag : BitVec 7) :
    DCache.hit (R.state t).core.dcache k tag =
      holdsTag cacheIndex cacheTag allocates (landedBefore R t) k tag := by
  induction t generalizing k tag with
  | zero =>
    have hentry : DCache.tagEntry (R.state 0).core.dcache k = 0 := R.init.core.tagMem _ _
    rw [DCache.hit, hentry]
    rfl
  | succ t ih =>
    have ht : t < T := ht
    have hbefore := ih (by omega)
    rw [landedBefore_succ]
    cases hacc : accessAt R t with
    | true =>
      rw [landedBefore_of_access hs ht hacc] at hbefore
      rw [hit_succ_of_access hs ht hacc hbefore, not_missedAgo_of_access hs ht hacc (by decide)
        (by decide), accessesBefore_succ hacc]
      rfl
    | false =>
      have hw : storesAt R t = false := Bool.eq_false_iff.mpr fun hw =>
        Bool.false_ne_true (hacc.symm.trans (access_of_stores hw))
      rw [hit_succ_of_no_store hs ht hw, not_misses_of_no_access hacc,
        if_neg Bool.false_ne_true]
      by_cases hago : missedAgo R t 2 = true
      · -- the refill lands
        obtain ⟨u, rfl⟩ : ∃ u, t = u + 2 := by
          simp only [missedAgo, Bool.and_eq_true, decide_eq_true_eq] at hago
          exact ⟨t - 2, by omega⟩
        have hmiss : missesAt R u = true := by simpa [missedAgo] using hago
        have hone : missedAgo R (u + 2) 1 = false := by
          rw [missedAgo_one]
          exact not_misses_of_no_access
            (hs.landed u (by omega) hmiss (u + 1) (by omega) (by omega) (by omega))
        have hold : landedBefore R (u + 2) = accessesBefore R u := by
          rw [landedBefore, hone, if_neg Bool.false_ne_true, if_pos hago, Nat.add_sub_cancel]
        rw [hone, if_neg Bool.false_ne_true, accessesBefore_of_refill hs ht hmiss,
          Nat.add_sub_cancel, hbefore, hold]
        by_cases hk : k = cacheIndex (accessIn R u)
        · rw [if_pos ⟨hago, hk⟩, hk, holdsTag_cons_self, allocates_of_misses hmiss, Bool.true_and]
        · rw [if_neg fun h => hk h.2, holdsTag_cons_of_ne (Ne.symm hk)]
      · rw [if_neg fun h => hago h.1, hbefore, landedBefore, if_neg hago,
          accessesBefore_succ_of_no_access hacc]

theorem eligible_accesses (ht : t ≤ T) : ∀ x ∈ accessesBefore R t, Eligible x := by
  induction t with
  | zero => exact fun x hx => absurd hx List.not_mem_nil
  | succ t ih =>
    intro x hx
    cases hacc : accessAt R t with
    | true =>
      rw [accessesBefore_succ hacc] at hx
      rcases List.mem_cons.mp hx with rfl | hx
      · exact hs.natural t ht hacc
      · exact ih (by omega) x hx
    | false =>
      rw [accessesBefore_succ_of_no_access hacc] at hx
      exact ih (by omega) x hx

end Replay

/-! ## Agreement -/

/-- The line of a load is in the cache, and since its last access another line of the cache has
taken its place in the shadow. -/
def Displaced (h : List Access) (a : Access) : Prop :=
  holdsTag cacheIndex cacheTag allocates h (cacheIndex a) (cacheTag a) = true ∧
    ∃ x ∈ lastAccess shadowIndex h (shadowIndex a), cacheIndex x ≠ cacheIndex a

instance (h : List Access) (a : Access) : Decidable (Displaced h a) := by
  unfold Displaced
  infer_instance

theorem shadowIndex_eq (a : Access) : shadowIndex a = DCache.lineOf (cacheIndex a) := by
  apply BitVec.eq_of_getLsbD_eq
  intro n hn
  have hlt : n < 10 := by omega
  simp only [shadowIndex, dcacheIndex, cacheIndex, DCache.indexOf, DCache.lineOf,
    BitVec.getLsbD_extractLsb', hn, hlt, decide_true, Bool.true_and, Nat.zero_add]

/-- The lowest tag bit is the bank. -/
theorem cacheIndex_of_shadowIndex (x y : Access) (h : shadowIndex x = shadowIndex y)
    (htag : cacheTag x = cacheTag y) : cacheIndex x = cacheIndex y := by
  rw [shadowIndex_eq, shadowIndex_eq] at h
  refine DCache.index_ext ?_ h
  have hbank := congrArg (fun tag => tag.getLsbD 0) htag
  exact (DCache.bank_of_addr x.addr).symm.trans (hbank.trans (DCache.bank_of_addr y.addr))

theorem record_load {h : List Access} {a : Access} (hload : a.isLoad = true) (ha : Eligible a) :
    ((shadowAfter h).record a).1 = dcacheHit (shadowAfter h).table a.addr := by
  rw [RtlDcache.record, if_pos hload, dcacheLoad, show proposedEligible a.addr a.width = true from ha]
  cases dcacheHit (shadowAfter h).table a.addr <;> rfl

theorem hits_agree_iff {h : List Access} (hh : ∀ x ∈ h, Eligible x) {a : Access}
    (hload : a.isLoad = true) (ha : Eligible a) :
    ((shadowAfter h).record a).1 =
        holdsTag cacheIndex cacheTag allocates h (cacheIndex a) (cacheTag a) ↔
      ¬Displaced h a := by
  have hcoarse : ∀ x y, cacheIndex x = cacheIndex y → shadowIndex x = shadowIndex y := by
    intro x y hxy
    rw [shadowIndex_eq, shadowIndex_eq, hxy]
  have hshadow : ((shadowAfter h).record a).1 = true ↔
      holdsTag cacheIndex cacheTag allocates h (cacheIndex a) (cacheTag a) = true ∧
        ∀ x ∈ lastAccess shadowIndex h (shadowIndex a), cacheIndex x = cacheIndex a := by
    rw [record_load hload ha, shadow_hit hh]
    exact holdsTag_coarse_iff hcoarse cacheIndex_of_shadowIndex h
  rw [Bool.eq_iff_iff, hshadow, Displaced]
  constructor
  · rintro hiff ⟨hhit, x, hx, hne⟩
    exact hne ((hiff.mpr hhit).2 x hx)
  · intro hno
    refine ⟨And.left, fun hhit => ⟨hhit, fun x hx => ?_⟩⟩
    by_contra hne
    exact hno ⟨hhit, x, hx, hne⟩

/-- Whenever only aligned loads and stores of the data RAM are made, each after the refill of
the miss before it has landed: the shadow reports the hits of the cache exactly when at every
load, if the line is in the cache, no access of the line in the other bank came after its last
access. -/
theorem shadow_hits_agree_iff (c : Config) (R : Run (machine c)) (T : ℕ)
    (hs : SpacedAccesses R T) :
    (∀ t < T, loadsAt R t = true →
        ((shadowAfter (accessesBefore R t)).record (accessIn R t)).1 = cacheHits R t) ↔
      ∀ t < T, loadsAt R t = true → ¬Displaced (accessesBefore R t) (accessIn R t) := by
  refine forall₃_congr fun t ht hload => ?_
  have hparts := hload
  simp only [loadsAt, Bool.and_eq_true] at hparts
  have hacc : accessAt R t = true := by simp [accessAt, hparts.1, EXU.needMemReq, hparts.2]
  rw [cacheHits_of_accessAt hacc, hit_eq_holdsTag hs (by omega), landedBefore_of_access hs ht hacc]
  exact hits_agree_iff (eligible_accesses hs (by omega)) hparts.2 (hs.natural t ht hacc)

/-- `lui x1, 0x80100; lw x3, 0(x1); nop; nop; lw x5, 0(x1)` with 64 KB of RAM. -/
def loadTwiceRun : Run (machine
    ⟨romOf [0x801000b7#32, 0x0000a183#32, 0x00000013#32, 0x00000013#32, 0x0000a283#32], 65536⟩) :=
  run _

/-- The first load misses and the second hits, in both. -/
theorem shadow_hits_agree_iff_loadTwice :
    SpacedAccesses loadTwiceRun 9 ∧
      (loadsAt loadTwiceRun 5 = true ∧ cacheHits loadTwiceRun 5 = false) ∧
      (loadsAt loadTwiceRun 8 = true ∧ cacheHits loadTwiceRun 8 = true) ∧
      ∀ t < 9, loadsAt loadTwiceRun t = true →
        ((shadowAfter (accessesBefore loadTwiceRun t)).record (accessIn loadTwiceRun t)).1 =
          cacheHits loadTwiceRun t :=
  have hs : SpacedAccesses loadTwiceRun 9 :=
    ⟨by decide +kernel, by decide +kernel, by decide +kernel⟩
  ⟨hs, by decide +kernel, by decide +kernel,
    (shadow_hits_agree_iff _ loadTwiceRun 9 hs).mpr (by decide +kernel)⟩

/-- `lui x1, 0x80100; lui x2, 0x80101; lw x3, 0(x1); nop; nop; lw x4, -2048(x2); nop; nop;
lw x5, 0(x1)` with 64 KB of RAM. -/
def otherBankRun : Run (machine
    ⟨romOf [0x801000b7#32, 0x80101137#32, 0x0000a183#32, 0x00000013#32, 0x00000013#32,
      0x80012203#32, 0x00000013#32, 0x00000013#32, 0x0000a283#32], 65536⟩) :=
  run _

/-- The third load hits in the cache and misses in the shadow. -/
theorem other_bank_displaces :
    SpacedAccesses otherBankRun 12 ∧ loadsAt otherBankRun 11 = true ∧
      cacheHits otherBankRun 11 = true ∧
      ((shadowAfter (accessesBefore otherBankRun 11)).record (accessIn otherBankRun 11)).1 = false :=
  ⟨⟨by decide +kernel, by decide +kernel, by decide +kernel⟩, by decide +kernel, by decide +kernel,
    by decide +kernel⟩

end JYDSoC
end Soc
end Jyd
