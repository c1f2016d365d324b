import Jyd.Core.Exu.NumericDfa

/-!
# TokenScan — the word step, byte by byte

The two chained two-byte stages look at up to four symbols of one memory word.  Here
their joint effect is a fold of one byte transition over the symbols that the word
still holds behind the address, whatever the alignment.
-/

namespace Jyd
namespace Core
namespace NumericTokenDfa

open Hdl

/-! ## The automaton on single bytes -/

theorem comma_ne_zero : chr ',' ≠ 0#8 := by decide

/-- A token scan; once stopped it ignores what follows. -/
@[ext]
structure Scan where
  state : BitVec 3
  mask : BitVec 8
  consumed : ℕ
  stopped : Bool
  deriving DecidableEq, Repr

namespace Scan

def start (state : BitVec 3) : Scan := ⟨state, 0, 0, false⟩

def byte (a : Scan) (c : BitVec 8) : Scan :=
  if a.stopped then a
  else if c = 0#8 then { a with stopped := true }
  else if c = chr ',' then { a with consumed := a.consumed + 1, stopped := true }
  else
    { state := nextState a.state c
      mask := a.mask ||| transitionMask a.state (nextState a.state c)
      consumed := a.consumed + 1
      stopped := nextState a.state c == 1#3 }

def bytes (a : Scan) (cs : List (BitVec 8)) : Scan := cs.foldl byte a

variable {a : Scan} {c : BitVec 8} {cs ds : List (BitVec 8)}

theorem bytes_cons : a.bytes (c :: cs) = (a.byte c).bytes cs := rfl

theorem bytes_append : a.bytes (cs ++ ds) = (a.bytes cs).bytes ds := List.foldl_append

theorem byte_of_stopped (h : a.stopped = true) : a.byte c = a := by
  simp [byte, h]

theorem bytes_of_stopped (h : a.stopped = true) : a.bytes cs = a := by
  induction cs with
  | nil => rfl
  | cons c cs ih => rw [bytes_cons, byte_of_stopped h, ih]

/-- A zero byte stops every scan. -/
theorem stopped_byte_zero : (a.byte 0#8).stopped = true := by
  by_cases h : a.stopped = true <;> simp [byte, h]

/-- Bytes behind a zero are never looked at. -/
theorem bytes_append_zero : a.bytes (cs ++ 0#8 :: ds) = a.bytes (cs ++ [0#8]) := by
  rw [bytes_append, bytes_append, bytes_cons, bytes_cons, bytes_of_stopped stopped_byte_zero]
  rfl

/-! ### Masks and counts accumulate -/

/-- A scan that goes on from `b`, with what was collected before it. -/
def after (a b : Scan) : Scan :=
  { b with mask := a.mask ||| b.mask, consumed := a.consumed + b.consumed }

theorem byte_after {b : Scan} : (a.after b).byte c = a.after (b.byte c) := by
  unfold byte
  -- the four outcomes of a byte are the same on both sides
  by_cases hstop : b.stopped = true
  · simp [after, hstop]
  by_cases hzero : c = 0#8
  · simp [after, hstop, hzero]
  by_cases hcomma : c = chr ','
  · simp [after, hstop, hcomma, comma_ne_zero, Nat.add_assoc]
  · simp [after, hstop, hzero, hcomma, BitVec.or_assoc, Nat.add_assoc]

theorem bytes_after {b : Scan} : (a.after b).bytes cs = a.after (b.bytes cs) := by
  induction cs generalizing b with
  | nil => rfl
  | cons c cs ih => rw [bytes_cons, byte_after, ih, bytes_cons]

/-- An unstopped scan resumes as a fresh one from its state. -/
theorem bytes_resume (h : a.stopped = false) : a.bytes cs = a.after ((start a.state).bytes cs) := by
  have hfresh : a.after (start a.state) = a := by
    ext1 <;> simp [after, start, h]
  rw [← bytes_after, hfresh]

theorem consumed_byte (h : (a.byte c).stopped = false) :
    (a.byte c).consumed = a.consumed + 1 := by
  unfold byte at h ⊢
  by_cases hstop : a.stopped = true
  · simp [hstop] at h
  by_cases hzero : c = 0#8
  · simp [hstop, hzero] at h
  by_cases hcomma : c = chr ','
  · simp [hstop, hcomma, comma_ne_zero] at h
  · simp [hstop, hzero, hcomma]

theorem stopped_of_bytes (h : (a.bytes cs).stopped = false) : a.stopped = false := by
  cases hstop : a.stopped with
  | false => rfl
  | true => rw [bytes_of_stopped hstop, hstop] at h; exact h

/-- A scan that has not stopped has consumed every byte. -/
theorem consumed_bytes (h : (a.bytes cs).stopped = false) :
    (a.bytes cs).consumed = a.consumed + cs.length := by
  induction cs generalizing a with
  | nil => rfl
  | cons c cs ih =>
    rw [bytes_cons] at h ⊢
    rw [ih h, consumed_byte (stopped_of_bytes h), List.length_cons]
    omega

theorem consumed_byte_le : (a.byte c).consumed ≤ a.consumed + 1 := by
  unfold byte
  split_ifs <;> simp

theorem consumed_bytes_le : (a.bytes cs).consumed ≤ a.consumed + cs.length := by
  induction cs generalizing a with
  | nil => exact le_rfl
  | cons c cs ih =>
    have hfirst : (a.byte c).consumed ≤ a.consumed + 1 := consumed_byte_le
    have hrest : ((a.byte c).bytes cs).consumed ≤ (a.byte c).consumed + cs.length := ih
    rw [bytes_cons, List.length_cons]
    omega

/-- One token of a block, up to the zero behind it. -/
def token (state : BitVec 3) (block : List (BitVec 8)) : Scan :=
  (start state).bytes (block ++ [0#8])

/-- A token that ends in the first `n` bytes is not affected by the others. -/
theorem token_of_stopped {state : BitVec 3} {n : ℕ}
    (h : ((start state).bytes ((cs ++ [0#8]).take n)).stopped = true) :
    token state cs = (start state).bytes ((cs ++ [0#8]).take n) := by
  rw [token, ← List.take_append_drop n (cs ++ [0#8]), bytes_append, bytes_of_stopped h]
  simp

/-- A token that does not end in the first `n` bytes goes on behind them. -/
theorem token_of_not_stopped {state : BitVec 3} {n : ℕ}
    (h : ((start state).bytes ((cs ++ [0#8]).take n)).stopped = false) :
    n ≤ cs.length ∧ ((start state).bytes ((cs ++ [0#8]).take n)).consumed = n ∧
      token state cs = ((start state).bytes ((cs ++ [0#8]).take n)).after
        (token ((start state).bytes ((cs ++ [0#8]).take n)).state (cs.drop n)) := by
  have hle : n ≤ cs.length := by
    by_contra hlong
    rw [List.take_of_length_le (by simp; omega), bytes_append] at h
    exact Bool.false_ne_true (h.symm.trans stopped_byte_zero)
  refine ⟨hle, ?_, ?_⟩
  · rw [consumed_bytes h, List.length_take, List.length_append]
    simp [start]
    omega
  · calc token state cs
        = ((start state).bytes ((cs ++ [0#8]).take n)).bytes ((cs ++ [0#8]).drop n) := by
          rw [← bytes_append, List.take_append_drop, token]
      _ = _ := by
          rw [bytes_resume h, List.drop_append_of_le_length hle, token]

end Scan

/-! ## One symbol of a stage -/

/-- The wires of a stage carry the scan; `more` says whether a further symbol exists. -/
structure Lane.Tracks (l : Lane) (a : Scan) (more : Bool) : Prop where
  state : l.state = a.state
  mask : l.mask = a.mask
  consumed : l.consumed = BitVec.ofNat 3 a.consumed
  stopped : l.stopped = a.stopped
  active : l.active = (!a.stopped && more)

variable {l : Lane} {a : Scan} {available : BitVec 3} {i : ℕ} {c : BitVec 8}

/-- A symbol that exists is one byte of the scan. -/
theorem Lane.Tracks.take (h : l.Tracks a true) (hi : i < available.toNat) :
    (symbolStep available l i c).Tracks (a.byte c) (decide (i + 1 < available.toNat)) := by
  have hactive : l.active = !a.stopped := by rw [h.active, Bool.and_true]
  by_cases hstop : a.stopped = true
  · -- nothing is taken behind the end of the token
    refine ⟨?_, ?_, ?_, ?_, ?_⟩ <;>
      simp [symbolStep, Scan.byte_of_stopped hstop, hactive, hstop, h.state, h.mask, h.consumed,
        h.stopped]
  by_cases hzero : c = 0#8
  · refine ⟨?_, ?_, ?_, ?_, ?_⟩ <;>
      simp [symbolStep, Scan.byte, hactive, hstop, hzero, hi, h.state, h.mask, h.consumed]
  have hz : (c == 0#8) = false := beq_false_of_ne hzero
  have hcount : BitVec.ofNat 3 a.consumed + BitVec.setWidth 3 (BitVec.ofBool true) =
      BitVec.ofNat 3 (a.consumed + 1) := by
    rw [BitVec.ofNat_add]
    rfl
  by_cases hcomma : c = chr ','
  · subst hcomma
    refine ⟨?_, ?_, ?_, ?_, ?_⟩ <;>
      simp [-BitVec.ofBool_true, symbolStep, Scan.byte, hactive, hstop, hz, comma_ne_zero, hi,
        h.state, h.mask, h.consumed, hcount]
  · have hc : (c == chr ',') = false := beq_false_of_ne hcomma
    refine ⟨?_, ?_, ?_, ?_, ?_⟩ <;>
      simp [-BitVec.ofBool_true, symbolStep, Scan.byte, hactive, hstop, hz, hzero, hc, hcomma, hi,
        h.state, h.mask, h.consumed, h.stopped, hcount]

/-- A symbol that does not exist changes nothing. -/
theorem Lane.Tracks.skip (h : l.Tracks a false) : (symbolStep available l i c).Tracks a false := by
  have hactive : l.active = false := by rw [h.active, Bool.and_false]
  refine ⟨?_, ?_, ?_, ?_, ?_⟩ <;>
    simp [symbolStep, hactive, h.state, h.mask, h.consumed, h.stopped]

/-! ## The two stages -/

theorem Lane.unpack_pack : Lane.unpack l.pack = l := by
  have hfield : ∀ {w : ℕ} (off : ℕ) (x : BitVec w),
      (∀ n < w, l.pack.getLsbD (off + n) = x.getLsbD n) → l.pack.extractLsb' off w = x := by
    intro w off x h
    apply BitVec.eq_of_getLsbD_eq
    intro n hn
    rw [BitVec.getLsbD_extractLsb', decide_eq_true hn, Bool.true_and, h n hn]
  have hbit : ∀ n, l.pack.getLsbD n =
      if n < 3 then l.state.getLsbD n else if n < 6 then l.consumed.getLsbD (n - 3)
      else if n < 7 then (BitVec.ofBool l.active).getLsbD (n - 6)
      else if n < 8 then (BitVec.ofBool l.stopped).getLsbD (n - 7)
      else l.mask.getLsbD (n - 8) := by
    intro n
    simp only [Lane.pack, BitVec.getLsbD_append]
    grind
  have hstate := hfield 0 l.state (fun n hn => by rw [hbit]; grind)
  have hconsumed := hfield 3 l.consumed (fun n hn => by rw [hbit]; grind)
  have hmask := hfield 8 l.mask (fun n hn => by rw [hbit]; grind)
  have hactive : l.pack.getLsbD 6 = l.active := by rw [hbit]; simp
  have hstopped : l.pack.getLsbD 7 = l.stopped := by rw [hbit]; simp
  rw [Lane.unpack, hstate, hconsumed, hmask, hactive, hstopped]

/-- The symbols that a shifted word still holds. -/
def symbols (data : Word) (available : ℕ) : List (BitVec 8) :=
  (List.range available).map (byteOf data)

theorem byteOf_half (data : Word) (n k : ℕ) (hk : k < 2) :
    (data.extractLsb' (16 * n) 16).extractLsb' (8 * k) 8 = byteOf data (2 * n + k) := by
  apply BitVec.eq_of_getLsbD_eq
  intro m hm
  simp only [byteOf, BitVec.getLsbD_extractLsb']
  have hlt : 8 * k + m < 16 := by omega
  have hpos : 16 * n + (8 * k + m) = 8 * (2 * n + k) + m := by omega
  simp [hlt, hpos, hm]

/-- A stage scans the symbols that exist, two at most. -/
theorem twoByteStep_tracks (data : Word) (n : ℕ) (h : l.Tracks a (decide (0 < available.toNat))) :
    (twoByteStep available (data.extractLsb' (16 * n) 16) l).Tracks
      (a.bytes ((List.range (min 2 available.toNat)).map (fun k => byteOf data (2 * n + k))))
      (decide (2 < available.toNat)) := by
  have hlow : (data.extractLsb' (16 * n) 16).extractLsb' 0 8 = byteOf data (2 * n + 0) :=
    byteOf_half data n 0 (by decide)
  have hhigh : (data.extractLsb' (16 * n) 16).extractLsb' 8 8 = byteOf data (2 * n + 1) :=
    byteOf_half data n 1 (by decide)
  rw [twoByteStep, hlow, hhigh]
  by_cases h0 : available.toNat = 0
  · rw [h0] at h
    simpa [h0, Scan.bytes] using h.skip.skip
  have hpos : 0 < available.toNat := Nat.pos_of_ne_zero h0
  rw [decide_eq_true hpos] at h
  have hfirst := h.take (c := byteOf data (2 * n + 0)) hpos
  by_cases h1 : available.toNat = 1
  · rw [h1] at hfirst
    simpa [h1, Scan.bytes] using hfirst.skip
  have htwo : 1 < available.toNat := by omega
  rw [decide_eq_true htwo] at hfirst
  have hmin : min 2 available.toNat = 2 := by omega
  rw [hmin]
  exact hfirst.take htwo

/-- What the second stage sees: the word step before its result is packed. -/
def wordStep (state : BitVec 3) (data : Word) (available : BitVec 3) : Lane :=
  twoByteStep (if 2 < available.toNat then available - 2 else 0) (data.extractLsb' 16 16)
    (Lane.unpack (twoByteStep available (data.extractLsb' 0 16)
      { state := state, mask := 0, consumed := 0, active := true, stopped := false }).pack)

/-- The word step is a scan over the symbols of the word. -/
theorem wordStep_tracks (state : BitVec 3) (data : Word) {available : BitVec 3}
    (hpos : 0 < available.toNat) (hle : available.toNat ≤ 4) :
    (wordStep state data available).Tracks
      ((Scan.start state).bytes (symbols data available.toNat)) false := by
  have hstart : ({ state := state, mask := 0, consumed := 0, active := true, stopped := false } :
      Lane).Tracks (Scan.start state) (decide (0 < available.toNat)) := by
    rw [decide_eq_true hpos]
    exact ⟨rfl, rfl, rfl, rfl, rfl⟩
  have hrest : (if 2 < available.toNat then available - 2 else 0 : BitVec 3).toNat =
      available.toNat - 2 := by
    by_cases h2 : 2 < available.toNat
    · have hsub : 2#3 ≤ available := BitVec.le_def.mpr (Nat.le_of_lt h2)
      rw [if_pos h2]
      exact BitVec.toNat_sub_of_le hsub
    · rw [if_neg h2, Nat.sub_eq_zero_of_le (Nat.le_of_not_lt h2)]
      rfl
  have hlow := twoByteStep_tracks data 0 hstart
  -- the second stage has symbols exactly when the first one leaves some
  have hmore : (2 < available.toNat) = (0 < available.toNat - 2) := by
    apply propext
    omega
  simp only [hmore] at hlow
  rw [← hrest] at hlow
  have hhigh := twoByteStep_tracks data 1 hlow
  rw [hrest, ← Scan.bytes_append] at hhigh
  have hsymbols : (List.range (min 2 available.toNat)).map (fun k => byteOf data (2 * 0 + k)) ++
      (List.range (min 2 (available.toNat - 2))).map (fun k => byteOf data (2 * 1 + k)) =
        symbols data available.toNat := by
    have hcases : available.toNat = 1 ∨ available.toNat = 2 ∨ available.toNat = 3 ∨
        available.toNat = 4 := by omega
    rcases hcases with h | h | h | h <;> simp [h, symbols, List.range_succ]
  rw [hsymbols] at hhigh
  have hend : decide (2 < available.toNat - 2) = false := decide_eq_false (by omega)
  rw [hend] at hhigh
  rw [wordStep, Lane.unpack_pack]
  exact hhigh

end NumericTokenDfa
end Core
end Jyd
