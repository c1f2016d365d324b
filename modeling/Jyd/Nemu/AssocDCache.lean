import Jyd.Nemu.ProfileDCache

/-!
# AssocDCache — the set-associative shadows of the profiler

Each entry carries an age.  A touch makes the selected way the youngest and ages the ways
that were younger; but every age starts at zero, so no way is ever younger than another,
and the first way of a full set is the one that is replaced.
-/

namespace Jyd
namespace Nemu
namespace Profile

open Hdl

structure AssocDCacheEnt where
  tag : Word
  valid : Bool
  lru : BitVec 8
  deriving DecidableEq, Repr

structure AssocDCache where
  sets : ℕ
  ways : ℕ
  entries : ℕ → AssocDCacheEnt
  stat : DCacheStat

namespace AssocDCache

/-- A cache in static storage. -/
def zero (sets ways : ℕ) : AssocDCache := ⟨sets, ways, fun _ => ⟨0, false, 0⟩, DCacheStat.zero⟩

variable (cache : AssocDCache) (addr : Word)

def assocSet : ℕ := (addr >>> 2).toNat % cache.sets
def assocTag : Word := BitVec.ofNat 32 ((addr >>> 2).toNat / cache.sets)

/-- The position of `assoc_entry(cache, set, way)` for the set of an address. -/
def slot (way : ℕ) : ℕ := cache.assocSet addr * cache.ways + way

def entry (way : ℕ) : AssocDCacheEnt := cache.entries (cache.slot addr way)

/-- The way that holds the line of an address. -/
def assocFind : Option ℕ :=
  (List.range cache.ways).find? fun way =>
    (cache.entry addr way).valid && (cache.entry addr way).tag == cache.assocTag addr

/-- The loop of `assoc_victim`: the first invalid way, or the oldest one. -/
def victimLoop : List ℕ → ℕ → ℕ
  | [], victim => victim
  | way :: rest, victim =>
    if !(cache.entry addr way).valid then way
    else
      victimLoop rest
        (if (cache.entry addr victim).lru < (cache.entry addr way).lru then way else victim)

def assocVictim : ℕ := cache.victimLoop addr (List.range cache.ways) 0

/-- One round of the loop of `assoc_touch`. -/
def ageStep (selected : ℕ) (oldLru : BitVec 8) (entries : ℕ → AssocDCacheEnt) (way : ℕ) :
    ℕ → AssocDCacheEnt :=
  let e := entries (cache.slot addr way)
  if way ≠ selected ∧ e.valid = true ∧ e.lru < oldLru then
    Function.update entries (cache.slot addr way) { e with lru := e.lru + 1 }
  else entries

def assocTouch (selected : ℕ) : AssocDCache :=
  let oldLru := (cache.entry addr selected).lru
  let aged := (List.range cache.ways).foldl (cache.ageStep addr selected oldLru) cache.entries
  let k := cache.slot addr selected
  { cache with entries := Function.update aged k { aged k with lru := 0 } }

/-- The way that an allocation takes. -/
def allocated : ℕ := (cache.assocFind addr).getD (cache.assocVictim addr)

def assocAllocate : AssocDCache :=
  let way := cache.allocated addr
  let k := cache.slot addr way
  let filled :=
    { cache with
      entries :=
        Function.update cache.entries k
          { cache.entries k with valid := true, tag := cache.assocTag addr } }
  filled.assocTouch addr way

def assocLoad (width : MemWidth) (eligible : Bool) : Bool × AssocDCache :=
  if !eligible then (false, cache)
  else
    match cache.assocFind addr with
    | some way => (true, { cache with stat := cache.stat.countHit width }.assocTouch addr way)
    | none => (false, { cache with stat := cache.stat.countMiss width }.assocAllocate addr)

def assocStore (width : MemWidth) : AssocDCache :=
  if !dcacheable addr then cache
  else if width = .word then { cache with stat := cache.stat.countFullStore }.assocAllocate addr
  else
    match cache.assocFind addr with
    | some way => { cache with stat := cache.stat.countPartialHit }.assocTouch addr way
    | none =>
      let k := cache.slot addr (cache.assocVictim addr)
      { cache with
        stat := cache.stat.countPartialInvalidate
        entries := Function.update cache.entries k { cache.entries k with valid := false } }

/-! ## Streams -/

/-- The step of `riscv_profile_record` for one of the shadows. -/
def record (a : Access) : AssocDCache :=
  if a.isLoad then (cache.assocLoad a.addr a.width (proposedEligible a.addr a.width)).2
  else cache.assocStore a.addr a.width

/-- An access that allocates its line on a miss. -/
def allocates (a : Access) : Bool :=
  if a.isLoad then proposedEligible a.addr a.width
  else dcacheable a.addr && decide (a.width = .word)

/-- The entry that an access touches. -/
def touched (a : Access) : Option ℕ :=
  if allocates a then some (cache.slot a.addr (cache.allocated a.addr))
  else if !a.isLoad && dcacheable a.addr then (cache.assocFind a.addr).map (cache.slot a.addr)
  else none

/-- The access misses in a set without free ways. -/
def Replaces (a : Access) : Prop :=
  allocates a = true ∧ cache.assocFind a.addr = none ∧
    ∀ way < cache.ways, (cache.entry a.addr way).valid = true

instance (a : Access) : Decidable (cache.Replaces a) := inferInstanceAs (Decidable (_ ∧ _ ∧ _))

end AssocDCache

/-- A shadow with the time of the last access to each entry. -/
structure History where
  cache : AssocDCache
  last : ℕ → ℕ
  now : ℕ

namespace History

def step (h : History) (a : Access) : History where
  cache := h.cache.record a
  last :=
    match h.cache.touched a with
    | some k => Function.update h.last k (h.now + 1)
    | none => h.last
  now := h.now + 1

def replay (sets ways : ℕ) (stream : List Access) : History :=
  stream.foldl step ⟨AssocDCache.zero sets ways, fun _ => 0, 0⟩

/-- No way of the set was last accessed before `way`. -/
def Oldest (h : History) (addr : Word) (way : ℕ) : Prop :=
  ∀ w < h.cache.ways, h.last (h.cache.slot addr way) ≤ h.last (h.cache.slot addr w)

instance (h : History) (addr : Word) (way : ℕ) : Decidable (h.Oldest addr way) :=
  inferInstanceAs (Decidable (∀ w < h.cache.ways, _))

end History

/-! ## No way ever ages -/

namespace AssocDCache

variable {cache : AssocDCache} {addr : Word}

def Ageless (cache : AssocDCache) : Prop := ∀ k, (cache.entries k).lru = 0

theorem ageless_zero (sets ways : ℕ) : Ageless (zero sets ways) := fun _ => rfl

/-- Among ways of age zero a touch changes nothing. -/
theorem assocTouch_of_ageless (h : cache.Ageless) (way : ℕ) : cache.assocTouch addr way = cache := by
  have hstep : ∀ w, cache.ageStep addr way (cache.entry addr way).lru cache.entries w = cache.entries := by
    intro w
    rw [ageStep, entry]
    refine if_neg fun hw => ?_
    rw [h, h] at hw
    exact absurd hw.2.2 (by decide)
  have hloop : ∀ ws : List ℕ,
      ws.foldl (cache.ageStep addr way (cache.entry addr way).lru) cache.entries = cache.entries := by
    intro ws
    induction ws with
    | nil => rfl
    | cons w ws ih => rw [List.foldl_cons, hstep, ih]
  have hself : Function.update cache.entries (cache.slot addr way)
      { cache.entries (cache.slot addr way) with lru := 0 } = cache.entries := by
    rw [← h (cache.slot addr way)]
    exact Function.update_eq_self _ _
  simp only [assocTouch, hloop, hself]

theorem Ageless.update (h : cache.Ageless) {k : ℕ} {e : AssocDCacheEnt} (he : e.lru = 0) :
    Ageless { cache with entries := Function.update cache.entries k e } := by
  intro j
  by_cases hj : j = k
  · simp [hj, he]
  · simp [Function.update_of_ne hj, h j]

/-- An allocation overwrites one entry. -/
theorem assocAllocate_of_ageless (h : cache.Ageless) :
    cache.assocAllocate addr =
      { cache with
        entries := Function.update cache.entries (cache.slot addr (cache.allocated addr))
          ⟨cache.assocTag addr, true, 0⟩ } := by
  rw [assocAllocate, assocTouch_of_ageless]
  · simp only [h (cache.slot addr (cache.allocated addr))]
  · exact h.update (h _)

theorem Ageless.allocate (h : cache.Ageless) : (cache.assocAllocate addr).Ageless := by
  rw [assocAllocate_of_ageless h]
  exact h.update rfl

theorem Ageless.record (h : cache.Ageless) (a : Access) : (cache.record a).Ageless := by
  have hstat : ∀ stat, Ageless { cache with stat := stat } := fun _ => h
  rw [AssocDCache.record]
  split
  · rw [assocLoad]
    split
    · exact h
    · split
      · rw [assocTouch_of_ageless (hstat _)]
        exact h
      · exact (hstat _).allocate
  · rw [assocStore]
    split
    · exact h
    · split
      · exact (hstat _).allocate
      · split
        · rw [assocTouch_of_ageless (hstat _)]
          exact h
        · exact (hstat _).update (h _)

/-- Without ages the search for a victim ends where it starts. -/
theorem assocVictim_of_full (h : cache.Ageless)
    (hfull : ∀ way < cache.ways, (cache.entry addr way).valid = true) :
    cache.assocVictim addr = 0 := by
  have hloop : ∀ ways : List ℕ, (∀ way ∈ ways, (cache.entry addr way).valid = true) →
      cache.victimLoop addr ways 0 = 0 := by
    intro ways
    induction ways with
    | nil => exact fun _ => rfl
    | cons way rest ih =>
      intro hvalid
      have hkeep : ¬ (cache.entry addr 0).lru < (cache.entry addr way).lru := by
        rw [entry, entry, h, h]
        decide
      rw [victimLoop, hvalid way List.mem_cons_self, if_neg (by decide), if_neg hkeep]
      exact ih fun w hw => hvalid w (List.mem_cons_of_mem _ hw)
  exact hloop _ fun way hway => hfull way (List.mem_range.mp hway)

end AssocDCache

/-! ## Replacements along a stream -/

namespace History

variable {sets ways : ℕ}

variable (sets ways) in
theorem ageless_replay (stream : List Access) : (replay sets ways stream).cache.Ageless := by
  have hrun : ∀ (h : History), h.cache.Ageless → (stream.foldl step h).cache.Ageless := by
    induction stream with
    | nil => exact fun _ h => h
    | cons a stream ih => exact fun h hage => ih (h.step a) (hage.record a)
  exact hrun _ (AssocDCache.ageless_zero sets ways)

theorem replay_snoc (stream : List Access) (a : Access) :
    replay sets ways (stream ++ [a]) = (replay sets ways stream).step a := by
  rw [replay, List.foldl_append]
  rfl

/-- A replacement overwrites the first way of its set, and no other entry. -/
theorem replaces_first {before : List Access} {a : Access}
    (hr : (replay sets ways before).cache.Replaces a) :
    (replay sets ways before).cache.assocVictim a.addr = 0 ∧
      (replay sets ways (before ++ [a])).cache.entries =
        Function.update (replay sets ways before).cache.entries
          ((replay sets ways before).cache.slot a.addr 0)
          ⟨(replay sets ways before).cache.assocTag a.addr, true, 0⟩ := by
  have hage := ageless_replay sets ways before
  rw [replay_snoc]
  generalize replay sets ways before = h at hr hage ⊢
  rcases hr with ⟨halloc, hmiss, hfull⟩
  refine ⟨AssocDCache.assocVictim_of_full hage hfull, ?_⟩
  have hstat : ∀ stat, AssocDCache.Ageless { h.cache with stat := stat } := fun _ => hage
  -- loads and full stores end in the same allocation
  have hentries : ∀ stat, ({ h.cache with stat := stat }.assocAllocate a.addr).entries =
      Function.update h.cache.entries (h.cache.slot a.addr 0) ⟨h.cache.assocTag a.addr, true, 0⟩ := by
    intro stat
    have hway : { h.cache with stat := stat }.allocated a.addr = 0 := by
      rw [AssocDCache.allocated, AssocDCache.assocVictim_of_full (hstat stat) hfull]
      show (h.cache.assocFind a.addr).getD 0 = 0
      rw [hmiss]
      rfl
    rw [AssocDCache.assocAllocate_of_ageless (hstat stat), hway]
    rfl
  show (h.cache.record a).entries = _
  rw [AssocDCache.allocates] at halloc
  rw [AssocDCache.record]
  split at halloc
  · rename_i hload
    rw [if_pos hload, AssocDCache.assocLoad, halloc, hmiss]
    exact hentries _
  · rename_i hload
    simp only [Bool.and_eq_true, decide_eq_true_eq] at halloc
    rw [if_neg hload, AssocDCache.assocStore, halloc.1, if_neg (by decide), if_pos halloc.2]
    exact hentries _

/-- Every replacement takes the first way of its set.  So the way that is replaced is always
the one with the oldest access exactly in those streams in which this is always the first. -/
theorem replaced_way_oldest_iff (sets ways : ℕ) (stream : List Access) :
    (∀ before a after, stream = before ++ a :: after → (replay sets ways before).cache.Replaces a →
      (replay sets ways (before ++ [a])).cache.entries =
        Function.update (replay sets ways before).cache.entries
          ((replay sets ways before).cache.slot a.addr 0)
          ⟨(replay sets ways before).cache.assocTag a.addr, true, 0⟩) ∧
    ((∀ before a after, stream = before ++ a :: after →
        (replay sets ways before).cache.Replaces a →
        (replay sets ways before).Oldest a.addr
          ((replay sets ways before).cache.assocVictim a.addr)) ↔
      ∀ before a after, stream = before ++ a :: after →
        (replay sets ways before).cache.Replaces a →
        (replay sets ways before).Oldest a.addr 0) := by
  refine ⟨fun before a _ _ hr => (replaces_first hr).2, ?_, ?_⟩
  · intro hclaim before a after hsplit hr
    rw [← (replaces_first hr).1]
    exact hclaim before a after hsplit hr
  · intro hfirst before a after hsplit hr
    rw [(replaces_first hr).1]
    exact hfirst before a after hsplit hr

/-- The second line is loaded again before each further replacement, so both of them take the
oldest line. -/
example :
    let line : ℕ → Access := fun k => ⟨true, BitVec.ofNat 32 (0x80100000 + 0x400 * k), .word⟩
    let first := replay 256 2 [line 0, line 1]
    let second := replay 256 2 [line 0, line 1, line 2, line 1]
    first.cache.Replaces (line 2) ∧ first.Oldest (line 2).addr 0 ∧
      second.cache.Replaces (line 3) ∧ second.Oldest (line 3).addr 0 := by
  decide +kernel

/-- Three loads that fall into one set of the two-way shadow. -/
def threeLoads : List Access :=
  [⟨true, 0x80100000#32, .word⟩, ⟨true, 0x80100400#32, .word⟩, ⟨true, 0x80100000#32, .word⟩]

/-- The fourth load replaces the line that was accessed last. -/
theorem newest_way_replaced :
    let h := replay 256 2 threeLoads
    let a : Access := ⟨true, 0x80100800#32, .word⟩
    h.cache.Replaces a ∧ h.cache.assocVictim a.addr = 0 ∧
      h.last (h.cache.slot a.addr 0) = 3 ∧ h.last (h.cache.slot a.addr 1) = 2 ∧
      ¬ h.Oldest a.addr (h.cache.assocVictim a.addr) := by
  decide +kernel

end History

end Profile
end Nemu
end Jyd
