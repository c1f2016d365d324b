import Jyd.Hdl.LeadsTo
import Jyd.Soc.UartDelivery

/-!
# UartProgress — no byte waits forever

With a core that takes and answers requests, and that has room for a byte once it has not
been written to for long enough, every byte pushed into the TX queue is written.  `rank`
counts how far the controller is from its next write; each wait lowers it, so a byte that
never leaves would lower it forever.
-/

namespace Jyd
namespace Soc
namespace UartSystem

open Hdl JydUartSubsystem

section Run

variable {depth : ℕ} (R : Run (machine depth))

/-! ## Fairness and rank -/

/-- The core takes and answers requests.  When no more writes are made it sends what it has,
and from then on its status register, at address 8, shows room for a byte. -/
structure Fair : Prop where
  core : AxiLite.Responsive (fun t => axi (R.state t).fsm) (fun t => (R.input t).core.slave)
  drains : ∀ t,
    (∀ u, t ≤ u → AxiLite.awFire (axi (R.state u).fsm) (R.input u).core.slave = false) →
      ∃ v, t ≤ v ∧ ∀ u d, v ≤ u →
        (ledger R u).bus.completedRead (axi (R.state u).fsm) (R.input u).core.slave =
          some (8, d) → d.data.getLsbD 3 = false

/-- How far the controller is from the next write. -/
def rank (r : Regs) : ℕ :=
  match r.state with
  | .txWriteB => 10
  | .idle => if r.justPopped then 9 else 4
  | .rxStatusAR => 8
  | .rxStatusR => 7
  | .rxDataAR => 6
  | .rxDataR => 5
  | .txStatusAR => 3
  | .txStatusR => 3
  | .txWriteAWW => (!r.awSent).toNat + (!r.wSent).toNat

variable {R}

/-! ## Waiting for the core -/

/-- The states that wait for the core without a byte to send. -/
def waiting (st : JydUartSubsystem.State) : Bool := st.isRx || st == .txWriteB

/-- What such a state waits for. -/
def awaited (c : OkayCore) : JydUartSubsystem.State → Bool
  | .rxStatusAR | .rxDataAR => c.arready
  | .rxStatusR | .rxDataR => c.r.valid
  | .txWriteB => c.bvalid
  | _ => true

theorem fsm_next_of_waiting {i : In} {s : State} (hw : waiting s.fsm.state = true)
    (hno : awaited i.core s.fsm.state = false) :
    (next depth i s).fsm = { s.fsm with txPop := false, rxPush := false } := by
  show JydUartSubsystem.next s.fsm (fsmIn depth i s) = _
  cases hs : s.fsm.state <;> rw [hs] at hw hno <;> first
    | exact absurd hw (by decide)
    | (simp only [awaited] at hno
       simp [JydUartSubsystem.next, hs, fsmIn, OkayCore.slave, hno])

/-- What was waited for brings the next write closer. -/
theorem rank_lt_of_awaited {i : In} {s : State} (hw : waiting s.fsm.state = true)
    (hjust : s.fsm.justPopped = false) (hgo : awaited i.core s.fsm.state = true) :
    rank (next depth i s).fsm < rank s.fsm := by
  show rank (JydUartSubsystem.next s.fsm (fsmIn depth i s)) < _
  cases hs : s.fsm.state with
  | rxStatusR =>
    rw [hs] at hgo
    have hv : i.core.r.valid = true := hgo
    -- without a received byte the search is over
    cases hbit : i.core.r.bits.getLsbD 0 <;>
      simp only [JydUartSubsystem.next, hs, fsmIn, OkayCore.slave, hv, hbit] <;>
      simp [rank, hs, hjust]
  | rxStatusAR | rxDataAR | rxDataR | txWriteB =>
    rw [hs] at hgo
    simp only [awaited] at hgo
    simp [JydUartSubsystem.next, hs, fsmIn, OkayCore.slave, hgo, rank, hjust]
  | _ =>
    rw [hs] at hw
    exact absurd hw (by decide)

theorem rank_of_waiting {r r' : Regs} (hw : waiting r.state = true) (hs : r'.state = r.state) :
    rank r' = rank r := by
  cases h : r.state <;> rw [h] at hw hs <;> first
    | exact absurd hw (by decide)
    | simp [rank, h, hs]

/-- A responsive core ends the wait. -/
theorem awaited_of_fair (hfair : Fair R) {t : ℕ} {st : JydUartSubsystem.State}
    (hw : waiting st = true) (hstays : ∀ u, t ≤ u → (R.state u).fsm.state = st) :
    ∃ u, t ≤ u ∧ awaited (R.input u).core st = true := by
  -- each wait is for one of the channels of the bus
  cases st with
  | rxStatusAR | rxDataAR => exact hfair.core.ar t fun u hu => by simp [axi, hstays u hu]
  | rxStatusR | rxDataR => exact hfair.core.r t fun u hu => by simp [axi, hstays u hu]
  | txWriteB => exact hfair.core.b t fun u hu => by simp [axi, hstays u hu]
  | _ => exact absurd hw (by decide)

theorem wait_progress (hfair : Fair R) {t : ℕ} (hjust : (R.state t).fsm.justPopped = false)
    (hw : waiting (R.state t).fsm.state = true) :
    ∃ u, t ≤ u ∧ rank (R.state u).fsm < rank (R.state t).fsm := by
  have hstay : ∀ (i : In) (s : State),
      s.fsm.state = (R.state t).fsm.state ∧ s.fsm.justPopped = false →
      awaited i.core (R.state t).fsm.state = false →
      (next depth i s).fsm.state = (R.state t).fsm.state ∧
        (next depth i s).fsm.justPopped = false := by
    rintro i s ⟨hs, hj⟩ hno
    rw [← hs] at hw hno
    rw [fsm_next_of_waiting hw hno]
    exact ⟨hs, hj⟩
  obtain ⟨u, htu, he, hkept, _⟩ := Run.first_event (R := R) (t := t)
    (P := fun s => s.fsm.state = (R.state t).fsm.state ∧ s.fsm.justPopped = false)
    (fun i _ => awaited i.core (R.state t).fsm.state) ⟨rfl, hjust⟩ hstay
    fun hstays => awaited_of_fair hfair hw fun u hu => (hstays u hu).1
  rcases hkept u htu le_rfl with ⟨hs, hj⟩
  refine ⟨u + 1, by omega, ?_⟩
  rw [← rank_of_waiting hw hs, R.step u]
  rw [← hs] at hw he
  exact rank_lt_of_awaited hw hj he

/-! ## Polling and writing -/

/-- Whoever keeps asking for the status gets an answer. -/
theorem status_answered (hfair : Fair R) {t : ℕ}
    (hpolls : ∀ u, t ≤ u → (R.state u).fsm.state.isPolling = true) :
    ∃ u, t ≤ u ∧ (R.state u).fsm.state = .txStatusR ∧ (R.input u).core.r.valid = true := by
  by_contra hno
  -- without an answer the controller would never get as far as waiting for one
  have hasks : ∀ u, t ≤ u → (R.state u).fsm.state = .txStatusAR := by
    intro u hu
    refine (State.isPolling_iff.mp (hpolls u hu)).resolve_right fun hs => ?_
    have hstays : ∀ w, u ≤ w → (R.state w).fsm.state = .txStatusR := by
      intro w hw
      induction w, hw using Nat.le_induction with
      | base => exact hs
      | succ w hw ih =>
        have hv : (R.input w).core.r.valid = false :=
          Bool.eq_false_iff.mpr fun hv => hno ⟨w, hu.trans hw, ih, hv⟩
        rw [R.step w]
        show (JydUartSubsystem.next (R.state w).fsm _).state = _
        simp [JydUartSubsystem.next, ih, fsmIn, OkayCore.slave, hv]
    rcases hfair.core.r u fun w hw => by simp [axi, hstays w hw] with ⟨w, hw, hv⟩
    exact hno ⟨w, hu.trans hw, hstays w hw, hv⟩
  rcases hfair.core.ar t fun u hu => by simp [axi, hasks u hu] with ⟨u, hu, hready⟩
  have hready' : (R.input u).core.arready = true := hready
  have hwaits : (R.state (u + 1)).fsm.state = .txStatusR := by
    rw [R.step u]
    show (JydUartSubsystem.next (R.state u).fsm _).state = _
    simp [JydUartSubsystem.next, hasks u hu, fsmIn, OkayCore.slave, hready']
  exact absurd ((hasks (u + 1) (by omega)).symm.trans hwaits) (by decide)

/-- What is answered then is a read of the status register. -/
theorem completedRead_status {t : ℕ} (hs : (R.state t).fsm.state = .txStatusR)
    (hv : (R.input t).core.r.valid = true) :
    (ledger R t).bus.completedRead (axi (R.state t).fsm) (R.input t).core.slave =
      some (8, ⟨(R.input t).core.r.bits, AxiLite.OKAY⟩) := by
  have hfire : AxiLite.rFire (axi (R.state t).fsm) (R.input t).core.slave = true := by
    simp [AxiLite.rFire, axi, OkayCore.slave, hs, hv]
  rw [AxiLite.Ledger.completedRead, if_pos hfire, (rxInv R t).status (Or.inl hs)]
  rfl

theorem room_reported (hfair : Fair R) {t : ℕ}
    (hpolls : ∀ u, t ≤ u → (R.state u).fsm.state.isPolling = true) :
    ∃ u, t ≤ u ∧ (R.state u).fsm.state = .txStatusR ∧ (R.input u).core.r.valid = true ∧
      (R.input u).core.r.bits.getLsbD 3 = false := by
  have hquiet : ∀ u, t ≤ u →
      AxiLite.awFire (axi (R.state u).fsm) (R.input u).core.slave = false := by
    intro u hu
    rcases State.isPolling_iff.mp (hpolls u hu) with hs | hs <;> simp [AxiLite.awFire, axi, hs]
  -- the core drains while it is only asked, and the next answer says so
  rcases hfair.drains t hquiet with ⟨v, htv, hroom⟩
  rcases status_answered hfair fun u hu => hpolls u (htv.trans hu) with ⟨u, hvu, hs, hv⟩
  exact ⟨u, htv.trans hvu, hs, hv, hroom u _ hvu (completedRead_status hs hv)⟩

/-- The controller does not ask for room forever. -/
theorem polling_progress (hfair : Fair R) {t : ℕ}
    (h : (R.state t).fsm.state.isPolling = true) :
    ∃ u, t ≤ u ∧ rank (R.state u).fsm < rank (R.state t).fsm := by
  have hfsm : ∀ i s, (next depth i s).fsm = JydUartSubsystem.next s.fsm (fsmIn depth i s) :=
    fun _ _ => rfl
  have hrank : rank (R.state t).fsm = 3 := by
    rcases State.isPolling_iff.mp h with hs | hs <;> simp [rank, hs]
  -- a full UART sends the controller back to the first polling state
  have hstay : ∀ (i : In) (s : State), s.fsm.state.isPolling = true →
      (s.fsm.state == .txStatusR && i.core.r.valid && !i.core.r.bits.getLsbD 3) = false →
      (next depth i s).fsm.state.isPolling = true := by
    intro i s hs hno
    rw [hfsm]
    rcases State.isPolling_iff.mp hs with hX | hX
    · cases hr : i.core.arready <;>
        simp [JydUartSubsystem.next, hX, fsmIn, OkayCore.slave, hr, State.isPolling]
    · cases hv : i.core.r.valid with
      | false => simp [JydUartSubsystem.next, hX, fsmIn, OkayCore.slave, hv, State.isPolling]
      | true =>
        have hbit : i.core.r.bits.getLsbD 3 = true := by
          cases hb : i.core.r.bits.getLsbD 3 with
          | true => rfl
          | false =>
            rw [hX, hv, hb] at hno
            exact absurd hno (by decide)
        simp only [JydUartSubsystem.next, hX, fsmIn, OkayCore.slave, hv, hbit]
        rfl
  obtain ⟨u, htu, he, hkept, _⟩ := Run.first_event (R := R) (t := t)
    (P := fun s => s.fsm.state.isPolling = true)
    (fun i s => s.fsm.state == .txStatusR && i.core.r.valid && !i.core.r.bits.getLsbD 3) h hstay
    (by
      intro hstays
      rcases room_reported hfair hstays with ⟨u, hu, hs, hv, hbit⟩
      exact ⟨u, hu, by simp only [hs, hv, hbit]; rfl⟩)
  refine ⟨u + 1, by omega, ?_⟩
  simp only [Bool.and_eq_true, beq_iff_eq, Bool.not_eq_true'] at he
  rcases he with ⟨⟨hs, hv⟩, hbit⟩
  have hnext : (R.state (u + 1)).fsm =
      { (R.state u).fsm with
        txPop := false
        rxPush := false
        awSent := false
        wSent := false
        state := .txWriteAWW } := by
    rw [R.step u]
    show JydUartSubsystem.next (R.state u).fsm (fsmIn depth (R.input u) (R.state u)) = _
    simp only [JydUartSubsystem.next, hs, fsmIn, OkayCore.slave, hv, hbit]
    rfl
  rw [hrank, hnext]
  show 2 < 3
  decide

theorem writes_length_mono {t u : ℕ} (h : t ≤ u) :
    (ledger R t).bus.writes.length ≤ (ledger R u).bus.writes.length := by
  refine R.observe_mono _ watch (fun l => l.bus.writes.length) ?_ h
  intro i s l
  show _ ≤ (l.bus.next (axi s.fsm) i.core.slave).writes.length
  simp only [AxiLite.Ledger.next]
  split
  · simp
  · exact le_rfl

/-- A write that has been taken is in the ledger. -/
theorem writes_succ_of_taken {t : ℕ} (hs : (R.state t).fsm.state = .txWriteAWW)
    (htaken : WriteTaken (R.input t) (R.state t) = true) :
    (ledger R (t + 1)).bus.writes.length = (ledger R t).bus.writes.length + 1 := by
  rcases txPhase R t with ⟨ws, h⟩
  cases h with
  | writing rest state pop just aw w _ head acc =>
    have hnext : TxPhase (next depth (R.input t) (R.state t)) (ledger R (t + 1)) _ :=
      TxPhase.next_writing state pop just aw w head acc
    rw [htaken, if_pos rfl] at hnext
    rcases hnext.accounts with ⟨_, hwrites, _⟩
    rw [hwrites, acc.writes]
    simp
  | resting state _ _ _ _ =>
    rw [hs] at state
    rcases state with h | h <;> exact absurd h (by decide)
  | polling _ state _ _ _ _ _ =>
    rw [hs] at state
    exact absurd state (by decide)
  | written _ _ state _ _ _ _ _ => exact absurd (hs.symm.trans state) (by decide)
  | popping _ _ state _ _ _ _ _ => exact absurd (hs.symm.trans state) (by decide)

section Stuck

variable {t : ℕ}
  (hstuck : ∀ u, t ≤ u → (ledger R u).bus.writes.length ≤ (ledger R t).bus.writes.length)

include hstuck

theorem not_taken {u : ℕ} (htu : t ≤ u) (hs : (R.state u).fsm.state = .txWriteAWW) :
    WriteTaken (R.input u) (R.state u) = false := by
  refine Bool.eq_false_iff.mpr fun htaken => ?_
  have hgrow := writes_succ_of_taken hs htaken
  have hle := hstuck (u + 1) (by omega)
  have hmono := writes_length_mono (R := R) htu
  omega

/-- What a cycle of the write state leaves, as long as the write is not complete. -/
theorem writing_next {u : ℕ} (htu : t ≤ u) (hs : (R.state u).fsm.state = .txWriteAWW) :
    (R.state (u + 1)).fsm =
      { (R.state u).fsm with
        txPop := false
        rxPush := false
        awSent := (R.state u).fsm.awSent ||
          AxiLite.awFire (axi (R.state u).fsm) (R.input u).core.slave
        wSent := (R.state u).fsm.wSent ||
          AxiLite.wFire (axi (R.state u).fsm) (R.input u).core.slave } := by
  have hopen : (((R.state u).fsm.awSent ||
        AxiLite.awFire (axi (R.state u).fsm) (fsmIn depth (R.input u) (R.state u)).axi) &&
      ((R.state u).fsm.wSent ||
        AxiLite.wFire (axi (R.state u).fsm) (fsmIn depth (R.input u) (R.state u)).axi)) = false :=
    not_taken hstuck htu hs
  rw [R.step u]
  show JydUartSubsystem.next (R.state u).fsm (fsmIn depth (R.input u) (R.state u)) = _
  rw [next_of_writing hs, hopen, if_neg (by decide), ← hs]
  rfl

/-- A part of a write that is still offered is taken some time. -/
theorem writing_progress (hfair : Fair R) {v : ℕ} (htv : t ≤ v)
    (hs : (R.state v).fsm.state = .txWriteAWW)
    (hopen : ((R.state v).fsm.awSent && (R.state v).fsm.wSent) = false) :
    ∃ u, v ≤ u ∧ rank (R.state u).fsm < rank (R.state v).fsm := by
  by_contra hno
  simp only [not_exists, not_and, Nat.not_lt] at hno
  -- the flags are only ever set, so a rank that never falls leaves them as they are
  have hkept : ∀ n, (R.state (v + n)).fsm.state = .txWriteAWW ∧
      (R.state (v + n)).fsm.awSent = (R.state v).fsm.awSent ∧
      (R.state (v + n)).fsm.wSent = (R.state v).fsm.wSent := by
    intro n
    induction n with
    | zero => exact ⟨hs, rfl, rfl⟩
    | succ n ih =>
      rcases ih with ⟨hst, haw, hw⟩
      have hnext := writing_next hstuck (by omega : t ≤ v + n) hst
      have hrank := hno (v + n + 1) (by omega)
      rw [hnext] at hrank
      rw [← Nat.add_assoc, hnext]
      simp only [rank, hs, hst, haw, hw] at hrank ⊢
      generalize AxiLite.awFire _ _ = fa at hrank ⊢
      generalize AxiLite.wFire _ _ = fw at hrank ⊢
      generalize (R.state v).fsm.awSent = a at hrank ⊢
      generalize (R.state v).fsm.wSent = b at hrank ⊢
      revert fa fw a b
      decide
  have hstays : ∀ u, v ≤ u → (R.state u).fsm.state = .txWriteAWW ∧
      (R.state u).fsm.awSent = (R.state v).fsm.awSent ∧
      (R.state u).fsm.wSent = (R.state v).fsm.wSent := by
    intro u hu
    have hu' := hkept (u - v)
    rwa [Nat.add_sub_cancel' hu] at hu'
  cases haw : (R.state v).fsm.awSent with
  | false =>
    rw [haw] at hstays
    obtain ⟨u, hu, hready⟩ := hfair.core.aw v fun u hu => by
      simp [axi, (hstays u hu).1, (hstays u hu).2.1]
    have hsent : (R.state (u + 1)).fsm.awSent = true := by
      rw [writing_next hstuck (htv.trans hu) (hstays u hu).1]
      simp [AxiLite.awFire, axi, (hstays u hu).1, (hstays u hu).2.1, hready]
    exact absurd ((hstays (u + 1) (by omega)).2.1.symm.trans hsent) (by decide)
  | true =>
    have hw : (R.state v).fsm.wSent = false := by rwa [haw, Bool.true_and] at hopen
    rw [hw] at hstays
    obtain ⟨u, hu, hready⟩ := hfair.core.w v fun u hu => by
      simp [axi, (hstays u hu).1, (hstays u hu).2.2]
    have hsent : (R.state (u + 1)).fsm.wSent = true := by
      rw [writing_next hstuck (htv.trans hu) (hstays u hu).1]
      simp [AxiLite.wFire, axi, (hstays u hu).1, (hstays u hu).2.2, hready]
    exact absurd ((hstays (u + 1) (by omega)).2.2.symm.trans hsent) (by decide)

end Stuck

/-- An idle controller with a byte to send latches it, unless it has just sent one. -/
theorem idle_progress {t : ℕ} (hs : (R.state t).fsm.state = .idle)
    (hbyte : (R.state t).fsm.justPopped = false → (R.state t).txFifo ≠ []) :
    rank (R.state (t + 1)).fsm < rank (R.state t).fsm := by
  rw [R.step t]
  show rank (JydUartSubsystem.next (R.state t).fsm (fsmIn depth (R.input t) (R.state t))) < _
  rw [next_of_idle hs]
  cases hjust : (R.state t).fsm.justPopped with
  | true =>
    simp only [Bool.not_true, Bool.and_false, Bool.false_eq_true, if_false]
    split <;> simp [rank, hs, hjust]
  | false =>
    have hne : (R.state t).txFifo.isEmpty = false := by simpa using hbyte hjust
    simp [fsmIn, hne, rank, hs, hjust]

/-- While a byte is to be sent, the next write comes closer or happens. -/
theorem send_progress (hfair : Fair R) {t : ℕ}
    (hstuck : ∀ u, t ≤ u → (ledger R u).bus.writes.length ≤ (ledger R t).bus.writes.length)
    (hpending : (ledger R t).bus.writes.length < (ledger R t).pushed.length) {v : ℕ}
    (htv : t ≤ v) : ∃ u, v ≤ u ∧ rank (R.state u).fsm < rank (R.state v).fsm := by
  rcases txPhase R v with ⟨ws, h⟩
  cases h with
  | resting state pop just noWrite acc =>
    rcases state with hs | hs
    · refine ⟨v + 1, by omega, idle_progress hs fun _ hempty => ?_⟩
      -- an empty queue would mean that everything has been written
      have hall := acc.pushed
      rw [hempty, List.append_nil] at hall
      have hlen : (ledger R v).bus.writes.length = (ledger R v).pushed.length := by
        rw [acc.writes, List.length_map, hall]
      have hle := hstuck v htv
      have hmono := (pushed_mono R htv).length_le
      omega
    · exact wait_progress hfair just (by rw [waiting, hs, Bool.true_or])
  | polling rest state _ _ _ _ _ => exact polling_progress hfair state
  | writing rest state _ _ _ _ pending _ _ =>
    exact writing_progress hstuck hfair htv state pending
  | written b rest state _ just _ _ _ =>
    exact wait_progress hfair just (by rw [waiting, state]; rfl)
  | popping b rest state _ just _ _ _ =>
    refine ⟨v + 1, by omega, idle_progress state fun hno => ?_⟩
    exact absurd (just.symm.trans hno) (by decide)

/-- As long as a byte waits, another one is written. -/
theorem writes_grow (hfair : Fair R) {t : ℕ}
    (hpending : (ledger R t).bus.writes.length < (ledger R t).pushed.length) :
    ∃ u, t ≤ u ∧ (ledger R t).bus.writes.length < (ledger R u).bus.writes.length := by
  by_contra hno
  simp only [not_exists, not_and, Nat.not_lt] at hno
  refine Run.not_descending (fun n => rank (R.state (t + n)).fsm) fun n => ?_
  rcases send_progress hfair hno hpending (by omega : t ≤ t + n) with ⟨u, hu, hlt⟩
  refine ⟨u - t, ?_⟩
  simp only [Nat.add_sub_cancel' (by omega : t ≤ u)]
  exact hlt

/-- Every number of bytes that has been pushed is written. -/
theorem writes_reach (hfair : Fair R) {t : ℕ} (n : ℕ) (hn : n ≤ (ledger R t).pushed.length) :
    ∃ u, t ≤ u ∧ n ≤ (ledger R u).bus.writes.length := by
  -- the bytes are written one after the other
  induction n with
  | zero => exact ⟨t, le_rfl, Nat.zero_le _⟩
  | succ n ih =>
    rcases ih (by omega) with ⟨u, htu, hu⟩
    by_cases hdone : n + 1 ≤ (ledger R u).bus.writes.length
    · exact ⟨u, htu, hdone⟩
    · have hmono := (pushed_mono R htu).length_le
      rcases writes_grow hfair (t := u) (by omega) with ⟨w, huw, hgrow⟩
      exact ⟨w, htu.trans huw, by omega⟩

/-- The writes of the bytes pushed so far are the first ones on the bus. -/
theorem pushed_written (hfair : Fair R) (t : ℕ) :
    ∃ u, t ≤ u ∧ (ledger R t).pushed.map txWrite <+: (ledger R u).bus.writes := by
  rcases writes_reach hfair (t := t) _ le_rfl with ⟨u, htu, hlen⟩
  refine ⟨u, htu, ?_⟩
  rw [writes_eq_take R u]
  refine List.IsPrefix.map txWrite ?_
  exact List.prefix_of_prefix_length_le (pushed_mono R htu) (List.take_prefix _ _)
    (by
      rw [List.length_take]
      have hmono := (pushed_mono R htu).length_le
      omega)

/-! ## Both directions -/

variable (depth) (R) in
/-- Whatever the delays of the core: the writes on its bus are the first bytes pushed into
the TX queue, and under a core that answers and drains every pushed byte is among them; the
bytes read from the core are those pushed into the RX queue one cycle later, where the CPU
finds them, and no push meets a full queue. -/
theorem bytes_cross_once :
    (∀ t, ∃ n, (ledger R t).bus.writes = ((ledger R t).pushed.take n).map txWrite) ∧
      (Fair R → ∀ t, ∃ u, t ≤ u ∧
        (ledger R t).pushed.map txWrite <+: (ledger R u).bus.writes) ∧
      (∀ t, (ledger R (t + 1)).delivered = receivedBytes (ledger R t).bus) ∧
      (∀ t, (R.state t).rxFifo <:+ (ledger R t).delivered) ∧
      ∀ t, ((R.state t).fsm.rxPush && rxFull depth (R.state t)) = false := by
  refine ⟨fun t => ⟨_, writes_eq_take R t⟩, pushed_written, delivered_succ R, rxFifo_suffix R, ?_⟩
  intro t
  cases hp : (R.state t).fsm.rxPush with
  | false => rfl
  | true => rw [not_full_of_push R hp, Bool.and_false]

end Run

/-! ## A core that is always ready -/

section Eager

def eagerCore : OkayCore := ⟨true, true, true, true, ⟨true, 0⟩⟩

theorem eagerCore_room : eagerCore.r.bits.getLsbD 3 = false := by decide

/-- Two bytes are pushed in the first two cycles. -/
def twoBytes : Run (machine 16) :=
  (machine 16).runFrom
    (fun t => ⟨eagerCore, if t = 0 then [0x4a#8] else if t = 1 then [0x59#8] else [], 0, 0⟩)
    ⟨JydUartSubsystem.Reset, [], []⟩ rfl

theorem twoBytes_fair : Fair twoBytes where
  core := ⟨fun t _ => ⟨t, le_rfl, rfl⟩, fun t _ => ⟨t, le_rfl, rfl⟩, fun t _ => ⟨t, le_rfl, rfl⟩,
    fun t _ => ⟨t, le_rfl, rfl⟩, fun t _ => ⟨t, le_rfl, rfl⟩⟩
  drains := by
    intro t _
    refine ⟨t, le_rfl, fun u d _ hread => ?_⟩
    rw [AxiLite.Ledger.data_of_completedRead hread]
    exact eagerCore_room

theorem bytes_cross_once_two :
    ∃ u, [txWrite 0x4a, txWrite 0x59] <+: (ledger twoBytes u).bus.writes := by
  rcases (bytes_cross_once 16 twoBytes).2.1 twoBytes_fair 2 with ⟨u, _, hu⟩
  exact ⟨u, hu⟩

end Eager

end UartSystem
end Soc
end Jyd
