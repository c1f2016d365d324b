import Jyd.Soc.TickCounter

/-!
# Uptime — the microseconds the software reads

`__am_timer_uptime` subtracts the tick count of the initialisation in 32 bits and divides
by 50.  Whatever the two clocks do, the count that the core sees never goes back, so the
uptime grows until 2³² ticks have passed; there it starts again at zero.
-/

namespace Jyd
namespace Soc

open Hdl

/-! ## The count across the clock domains -/

section Visible

variable (F : Run FPGABus.machine)

/-- The 50 MHz edges before instant `t` at which the counter was enabled. -/
def counted : ℕ → ℕ
  | 0 => 0
  | t + 1 =>
    counted t + ((F.input t).edges.clk_50Mhz && (F.state t).cnt.counter.enableSync2).toNat

/-- The counts in the two synchroniser stages of the core. -/
def synchronised : ℕ → ℕ × ℕ
  | 0 => (0, 0)
  | t + 1 =>
    if (F.input t).edges.clock then (counted F t, (synchronised t).1) else synchronised t

/-- The count that the core sees at instant `t`. -/
def visible (t : ℕ) : ℕ := (synchronised F t).2

theorem ticks_counted (t : ℕ) :
    (F.state t).cnt.counter.ticks = BitVec.ofNat 32 (counted F t) := by
  induction t with
  | zero =>
    rw [F.init.counter]
    rfl
  | succ t ih =>
    have hnext : (F.state (t + 1)).cnt.counter.ticks =
        if (F.input t).edges.clk_50Mhz && (F.state t).cnt.counter.enableSync2 then
          (F.state t).cnt.counter.ticks + 1
        else (F.state t).cnt.counter.ticks := by
      rw [F.step t]
      rfl
    rw [hnext, counted, ih]
    cases (F.input t).edges.clk_50Mhz && (F.state t).cnt.counter.enableSync2 with
    | false => rfl
    | true => exact (BitVec.ofNat_add _ 1).symm

theorem gray_synchronised (t : ℕ) :
    (F.state t).cnt.counter.tickGraySync1 =
        BitVec.ofNat 32 (synchronised F t).1 ^^^ (BitVec.ofNat 32 (synchronised F t).1 >>> 1) ∧
      (F.state t).cnt.counter.tickGraySync2 =
        BitVec.ofNat 32 (synchronised F t).2 ^^^ (BitVec.ofNat 32 (synchronised F t).2 >>> 1) := by
  induction t with
  | zero =>
    rw [F.init.counter, synchronised]
    decide
  | succ t ih =>
    have hnext : (F.state (t + 1)).cnt.counter.tickGraySync1 =
          (if (F.input t).edges.clock then JYDFPGATickCounter.tickGray (F.state t).cnt.counter
           else (F.state t).cnt.counter.tickGraySync1) ∧
        (F.state (t + 1)).cnt.counter.tickGraySync2 =
          (if (F.input t).edges.clock then (F.state t).cnt.counter.tickGraySync1
           else (F.state t).cnt.counter.tickGraySync2) := by
      rw [F.step t]
      exact ⟨rfl, rfl⟩
    rw [hnext.1, hnext.2, synchronised]
    cases (F.input t).edges.clock with
    | false => exact ih
    | true => exact ⟨by rw [if_pos rfl, JYDFPGATickCounter.tickGray, ticks_counted]; rfl, ih.1⟩

/-- What a read of the counter register at instant `t` returns. -/
def getTicks (t : ℕ) : Word := JYDFPGATickCounter.tickBinary (F.state t).cnt.counter

theorem getTicks_eq (t : ℕ) : getTicks F t = BitVec.ofNat 32 (visible F t) := by
  have hgray := (gray_synchronised F t).2
  exact JYDFPGATickCounter.tickBinary_of_gray
    (r := { (F.state t).cnt.counter with ticks := BitVec.ofNat 32 (visible F t) }) hgray

/-- The stages hold older counts. -/
theorem synchronised_le (t : ℕ) :
    (synchronised F t).2 ≤ (synchronised F t).1 ∧ (synchronised F t).1 ≤ counted F t := by
  induction t with
  | zero => exact ⟨le_rfl, le_rfl⟩
  | succ t ih =>
    rw [synchronised, counted]
    split
    · exact ⟨ih.2, Nat.le_add_right _ _⟩
    · exact ⟨ih.1, ih.2.trans (Nat.le_add_right _ _)⟩

theorem visible_mono : Monotone (visible F) := by
  refine monotone_nat_of_le_succ fun t => ?_
  rw [visible, visible, synchronised]
  split
  · exact (synchronised_le F t).1
  · exact le_rfl

end Visible

/-! ## The uptime -/

section Readings

variable (F : Run FPGABus.machine)

/-- `uptime->us` at instant `t`, after `__am_timer_init` at instant `start`. -/
def uptimeAt (start t : ℕ) : BitVec 64 :=
  (amTimerUptime (getTicks F t) (getTicks F start)).setWidth 64

/-- The readings between the initialisation and instant `n` never decrease. -/
def UptimeGrows (start n : ℕ) : Prop :=
  ∀ t u, start ≤ t → t ≤ u → u ≤ n → uptimeAt F start t ≤ uptimeAt F start u

/-- The core sees the counter at least once in a turn of its 32 bits. -/
def Watched : Prop := ∀ t, visible F (t + 1) ≤ visible F t + (2 ^ 32 - 50)

theorem uptimeAt_toNat {start t : ℕ} (h : start ≤ t) :
    (uptimeAt F start t).toNat = (visible F t - visible F start) % 2 ^ 32 / 50 := by
  have hmono := visible_mono F h
  have hdiff : getTicks F t - getTicks F start =
      BitVec.ofNat 32 (visible F t - visible F start) := by
    rw [getTicks_eq, getTicks_eq]
    apply BitVec.eq_of_toNat_eq
    simp only [BitVec.toNat_sub, BitVec.toNat_ofNat]
    omega
  rw [uptimeAt, amTimerUptime, hdiff]
  have hfit : (visible F t - visible F start) % 2 ^ 32 / 50 < 2 ^ 64 := by omega
  simp only [BitVec.toNat_setWidth, BitVec.toNat_udiv, BitVec.toNat_ofNat]
  exact Nat.mod_eq_of_lt hfit

variable {F}

theorem uptime_grows {start n : ℕ} (hfew : visible F n < visible F start + 2 ^ 32) :
    UptimeGrows F start n := by
  intro t u hst htu hun
  have hs := visible_mono F hst
  have ht := visible_mono F htu
  have hu := visible_mono F hun
  rw [BitVec.le_def, uptimeAt_toNat F hst, uptimeAt_toNat F (hst.trans htu)]
  rw [Nat.mod_eq_of_lt (by omega), Nat.mod_eq_of_lt (by omega)]
  exact Nat.div_le_div_right (by omega)

/-- At the turn of the counter the uptime falls back. -/
theorem few_ticks_of_grows (hwatch : Watched F) {start n : ℕ} (hn : start ≤ n)
    (hgrows : UptimeGrows F start n) : visible F n < visible F start + 2 ^ 32 := by
  induction n, hn using Nat.le_induction with
  | base => omega
  | succ n hn ih =>
    have hbefore := ih fun t u hst htu hun => hgrows t u hst htu (by omega)
    have hstep := hwatch n
    have hlast := hgrows n (n + 1) hn (by omega) le_rfl
    have hs := visible_mono F hn
    have hs' := visible_mono F (show start ≤ n + 1 by omega)
    rw [BitVec.le_def, uptimeAt_toNat F hn, uptimeAt_toNat F (by omega)] at hlast
    by_contra hturn
    have hlow : (visible F n - visible F start) % 2 ^ 32 = visible F n - visible F start :=
      Nat.mod_eq_of_lt (by omega)
    have hhigh : (visible F (n + 1) - visible F start) % 2 ^ 32 =
        visible F (n + 1) - visible F start - 2 ^ 32 := by omega
    omega

variable (F) in
/-- As long as fewer than 2³² ticks have been counted since the initialisation, the uptime
readings never decrease, whatever the count was then and whatever the two clocks do; and a
core that sees the counter often enough sees them decrease as soon as it is no longer so. -/
theorem uptime_grows_iff {start n : ℕ} (hn : start ≤ n) :
    (visible F n < visible F start + 2 ^ 32 → UptimeGrows F start n) ∧
      (Watched F → UptimeGrows F start n → visible F n < visible F start + 2 ^ 32) :=
  ⟨uptime_grows, fun hwatch => few_ticks_of_grows hwatch hn⟩

end Readings

/-! ### One start -/

/-- A core on the 50 MHz clock sees every tick. -/
theorem watched_of_lockstep {F : Run FPGABus.machine} (hclk : Lockstep F) : Watched F := by
  -- the two stages lag behind by at most one tick each
  have hlag : ∀ t, counted F t ≤ (synchronised F t).1 + 1 ∧
      (synchronised F t).1 ≤ (synchronised F t).2 + 1 := by
    intro t
    induction t with
    | zero => exact ⟨Nat.zero_le _, Nat.zero_le _⟩
    | succ t ih =>
      have hclock : (F.input t).edges.clock = true := by rw [hclk t]
      rw [counted, synchronised, if_pos hclock]
      exact ⟨Nat.add_le_add_left (Bool.toNat_le _) _, ih.1⟩
  intro t
  have hclock : (F.input t).edges.clock = true := by rw [hclk t]
  rw [visible, visible, synchronised, if_pos hclock]
  have hstage := (hlag t).2
  show (synchronised F t).1 ≤ _
  omega

theorem getTicks_startThenRead (t : ℕ) :
    getTicks startThenReadFPGA (t + 5) = BitVec.ofNat 32 t := by
  have hen : fpgaEnabled startThenReadFPGA = fun v => decide (0 < v) :=
    funext startThenRead_enabled
  rw [getTicks, tickBinary_at (t := t + 1) (fun _ => rfl), hen, (counts_from_start t).1]

/-- Eighty-six seconds after its start a counter that has been left running turns the uptime
back to zero. -/
theorem uptime_turns_back :
    (∀ t, 0 < t → fpgaEnabled startThenReadFPGA t = true) ∧
      uptimeAt startThenReadFPGA 5 4294967300 = 85899345#64 ∧
      uptimeAt startThenReadFPGA 5 4294967301 = 0#64 := by
  refine ⟨fun t ht => ?_, ?_, ?_⟩
  · rw [fpgaEnabled]
    exact (startThenRead_enabled t).trans (decide_eq_true ht)
  · rw [uptimeAt, getTicks_startThenRead 4294967295, getTicks_startThenRead 0]
    decide
  · rw [uptimeAt, getTicks_startThenRead 4294967296, getTicks_startThenRead 0]
    decide

theorem uptime_grows_iff_start :
    UptimeGrows startThenReadFPGA 5 105 ∧ uptimeAt startThenReadFPGA 5 105 = 2#64 ∧
      visible startThenReadFPGA 105 < visible startThenReadFPGA 5 + 2 ^ 32 := by
  have hiff := uptime_grows_iff startThenReadFPGA (show 5 ≤ 105 by decide)
  have hgrows := hiff.1 (by decide +kernel)
  refine ⟨hgrows, ?_, hiff.2 (watched_of_lockstep fun _ => rfl) hgrows⟩
  rw [uptimeAt, getTicks_startThenRead 100, getTicks_startThenRead 0]
  decide

end Soc
end Jyd
