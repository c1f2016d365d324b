import Jyd.Hdl.LeadsTo
import Jyd.Core.Ifu

/-!
# IfuStream — one instruction per accepted pc

IFU between an arbitrary source of pcs, an arbitrary memory that answers each request
once and later than it was made, and an arbitrary consumer.  The `n`-th emitted packet
is the `n`-th accepted pc with the `n`-th word that memory returned.
-/

namespace Jyd
namespace Core
namespace IFU

open Hdl

structure Reset (r : Regs) : Prop where
  state : r.state = .idle
  instID : r.instID = 0

def machine : Machine In Regs where
  init := Reset
  next := fun i r => next r i

/-! ## What goes in and out -/

variable (i : In) (r : Regs)

def memReqFire : Bool := memReqValid r i && i.memReqReady
def outFire : Bool := outValid r i && i.outReady

/-- Everything that has passed the four ports, in order. -/
structure Log where
  accepted : List Request
  requested : List Word
  returned : List Word
  emitted : List FetchedInst

def Log.watch (i : In) (r : Regs) (L : Log) : Log where
  accepted := L.accepted ++ (if pcFire r i then [IFU.accepted r i] else [])
  requested := L.requested ++ (if memReqFire i r then [memReqAddr r i] else [])
  returned := L.returned ++ (if i.memResp.valid then [i.memResp.bits] else [])
  emitted := L.emitted ++ (if outFire i r then [outBits r i] else [])

/-- The packet for an accepted pc and the word of its address. -/
def packet (q : Request) (code : Word) : FetchedInst := ⟨code, q.pc, q.iid, q.epoch, q.pred⟩

/-- The log once every accepted pc has been emitted. -/
def settled (done : List Request) (words : List Word) : Log :=
  ⟨done, done.map (·.pc), words, List.zipWith packet done words⟩

/-- Where the last accepted pc is: which registers hold it, and how far it has come. -/
inductive Tracks (r : Regs) (L : Log) : Prop
  | idle (done : List Request) (words : List Word) (state : r.state = .idle)
      (len : done.length = words.length) (log : L = settled done words)
  | waitReq (done : List Request) (words : List Word) (state : r.state = .waitReq)
      (len : done.length = words.length)
      (log : L = { settled done words with accepted := done ++ [r.pending] })
  | waitResp (done : List Request) (words : List Word) (state : r.state = .waitResp)
      (len : done.length = words.length)
      (log : L = { settled done words with
        accepted := done ++ [r.req], requested := (done ++ [r.req]).map (·.pc) })
  | waitOut (done : List Request) (words : List Word) (state : r.state = .waitOut)
      (len : done.length = words.length)
      (log : L = { settled done words with
        accepted := done ++ [r.req], requested := (done ++ [r.req]).map (·.pc)
        returned := words ++ [r.instReg] })

variable {i r} {L : Log} {done : List Request} {words : List Word}

theorem settled_append (h : done.length = words.length) (q : Request) (w : Word) :
    settled (done ++ [q]) (words ++ [w]) =
      ⟨done ++ [q], (done ++ [q]).map (·.pc), words ++ [w],
        List.zipWith packet done words ++ [packet q w]⟩ := by
  rw [settled, List.zipWith_append h]
  rfl

/-- The next pc is accepted as soon as the slot is free. -/
theorem tracks_accept (done : List Request) (words : List Word) (hready : pcReady r i = true)
    (hpend : pendingReqValid r = false) (hstate : (next r i).state = nxtStateWhenAcceptInput i)
    (hlen : done.length = words.length) :
    Tracks (next r i)
      { settled done words with
        accepted := done ++ (if pcFire r i then [accepted r i] else [])
        requested := done.map (·.pc) ++ (if memReqFire i r then [memReqAddr r i] else []) } := by
  -- an accepted pc goes to memory in the same cycle when memory is ready
  cases hv : i.pcValid with
  | false =>
    have hfire : pcFire r i = false := by simp [pcFire, hv]
    have hmem : memReqFire i r = false := by simp [memReqFire, memReqValid, hfire, hpend]
    refine Tracks.idle done words ?_ hlen ?_
    · rw [hstate, nxtStateWhenAcceptInput, hv]
      rfl
    · simp [hfire, hmem, settled]
  | true =>
    have hfire : pcFire r i = true := by simp [pcFire, hv, hready]
    cases hm : i.memReqReady with
    | false =>
      have hmem : memReqFire i r = false := by simp [memReqFire, hm]
      have hpending : (next r i).pending = accepted r i := by
        simp [next, inputReqFire, hfire, hm]
      refine Tracks.waitReq done words ?_ hlen ?_
      · rw [hstate, nxtStateWhenAcceptInput, hv, hm]
        rfl
      · simp [hfire, hmem, settled, hpending]
    | true =>
      have hmem : memReqFire i r = true := by simp [memReqFire, memReqValid, hfire, hm]
      have hreq : (next r i).req = accepted r i := by simp [next, inputReqFire, hfire, hm]
      have haddr : memReqAddr r i = (accepted r i).pc := by simp [memReqAddr, hpend, accepted]
      refine Tracks.waitResp done words ?_ hlen ?_
      · rw [hstate, nxtStateWhenAcceptInput, hv, hm]
        rfl
      · simp [hfire, hmem, settled, hreq, haddr]

/-- The request registers keep their pc while nothing new is taken. -/
theorem req_next (hpc : pcFire r i = false) (hpend : pendingReqValid r = false) :
    (next r i).req = r.req := by
  simp [next, inputReqFire, hpc, pendingReqFire, hpend]

theorem not_outFire (h : r.state = .idle ∨ r.state = .waitReq) : outFire i r = false := by
  rcases h with h | h <;> simp [outFire, outValid, isWaitingRespMeetValid, h]

/-- A pc that memory has not taken yet is asked for again. -/
theorem tracks_of_waitReq (state : r.state = .waitReq) (len : done.length = words.length)
    (hno : i.memResp.valid = false) :
    Tracks (next r i) (({ settled done words with accepted := done ++ [r.pending] } : Log).watch
      i r) := by
  have hout : outFire i r = false := not_outFire (Or.inr state)
  have hpc : pcFire r i = false := by
    simp [pcFire, pcReady_eq, state]
  cases hm : i.memReqReady with
  | false =>
    refine Tracks.waitReq done words ?_ len ?_
    · simp [next, pendingReqFire, state, hm]
    · simp [Log.watch, settled, hno, hout, hpc, memReqFire, hm, next]
  | true =>
    have hreq : (next r i).req = r.pending := by
      simp [next, inputReqFire, hpc, pendingReqFire, pendingReqValid, state, hm]
    refine Tracks.waitResp done words ?_ len ?_
    · simp [next, pendingReqFire, pendingReqValid, state, hm]
    · simp [Log.watch, settled, hno, hout, hpc, memReqFire, memReqValid, memReqAddr,
        pendingReqValid, state, hm, hreq]

/-- The word is handed on in the cycle in which it comes, or kept until it is taken. -/
theorem tracks_of_waitResp (state : r.state = .waitResp) (len : done.length = words.length) :
    Tracks (next r i) (({ settled done words with
      accepted := done ++ [r.req], requested := (done ++ [r.req]).map (·.pc) } : Log).watch
        i r) := by
  have hpend : pendingReqValid r = false := by simp [pendingReqValid, state]
  cases hv : i.memResp.valid with
  | false =>
    have hwait : isWaitingRespMeetValid r i = false := by simp [isWaitingRespMeetValid, hv]
    have hpc : pcFire r i = false := by
      simp [pcFire, pcReady_eq, hv, state]
    refine Tracks.waitResp done words ?_ len ?_
    · simp [next, state, hv]
    · simp [Log.watch, settled, hv, hpc, hpend, memReqFire, memReqValid, outFire, outValid,
        hwait, state, req_next hpc hpend]
  | true =>
    have hwait : isWaitingRespMeetValid r i = true := by
      simp [isWaitingRespMeetValid, hv, state]
    have hbits : outBits r i = packet r.req i.memResp.bits := by
      simp [outBits, packet, inst, hv]
    cases ho : i.outReady with
    | true =>
      -- the slot is freed and may take the next pc in this very cycle
      have hnext := tracks_accept (i := i) (r := r) (done ++ [r.req])
        (words ++ [i.memResp.bits]) (by simp [pcReady, consumeResp, hwait, ho])
        hpend (by simp [next, state, hv, ho]) (by simp [len])
      rw [settled_append len] at hnext
      simpa [Log.watch, settled, hv, outFire, outValid, hwait, ho, hbits] using hnext
    | false =>
      have hpc : pcFire r i = false := by
        simp [pcFire, pcReady_eq, state, ho]
      have hinst : (next r i).instReg = i.memResp.bits := by simp [next, hv]
      refine Tracks.waitOut done words ?_ len ?_
      · simp [next, state, hv, ho]
      · simp [Log.watch, settled, hv, hpc, hpend, memReqFire, memReqValid, outFire, ho,
          req_next hpc hpend, hinst]

theorem tracks_of_waitOut (state : r.state = .waitOut) (len : done.length = words.length)
    (hno : i.memResp.valid = false) :
    Tracks (next r i) (({ settled done words with
      accepted := done ++ [r.req], requested := (done ++ [r.req]).map (·.pc)
      returned := words ++ [r.instReg] } : Log).watch i r) := by
  have hpend : pendingReqValid r = false := by simp [pendingReqValid, state]
  have hbits : outBits r i = packet r.req r.instReg := by simp [outBits, packet, inst, hno]
  cases ho : i.outReady with
  | true =>
    have hnext := tracks_accept (i := i) (r := r) (done ++ [r.req])
      (words ++ [r.instReg]) (by simp [pcReady, consumeWaitOut, state, ho]) hpend
      (by simp [next, state, ho]) (by simp [len])
    rw [settled_append len] at hnext
    simpa [Log.watch, settled, hno, outFire, outValid, state, ho, hbits] using hnext
  | false =>
    have hpc : pcFire r i = false := by
      simp [pcFire, pcReady_eq, state, ho]
    have hinst : (next r i).instReg = r.instReg := by simp [next, hno]
    refine Tracks.waitOut done words ?_ len ?_
    · simp [next, state, ho]
    · simp [Log.watch, settled, hno, hpc, hpend, memReqFire, memReqValid, outFire, ho,
        req_next hpc hpend, hinst]

/-- One cycle, under a memory that answers only what it was asked in an earlier cycle. -/
theorem Tracks.next (h : Tracks r L)
    (hmem : i.memResp.valid = true → L.returned.length < L.requested.length) :
    Tracks (IFU.next r i) (L.watch i r) := by
  -- outside `waitResp` as many words were returned as asked for, so none can come
  have hquiet : L.requested.length ≤ L.returned.length → i.memResp.valid = false := by
    intro hle
    refine Bool.eq_false_iff.mpr ?_
    intro hv
    exact absurd (hmem hv) (by omega)
  cases h with
  | idle done words state len log =>
    subst log
    have hno : i.memResp.valid = false := hquiet (by simp [settled, len])
    have hout : outFire i r = false := not_outFire (Or.inl state)
    have hnext := tracks_accept (i := i) (r := r) done words (by simp [pcReady, state])
      (by simp [pendingReqValid, state]) (by simp [IFU.next, state]) len
    simpa [Log.watch, settled, hno, hout] using hnext
  | waitReq done words state len log =>
    subst log
    exact tracks_of_waitReq state len (hquiet (by simp [settled, len]))
  | waitResp done words state len log =>
    subst log
    exact tracks_of_waitResp state len
  | waitOut done words state len log =>
    subst log
    exact tracks_of_waitOut state len (hquiet (by simp [len]))

/-! ## Along a run -/

/-- What the log says when it is tracked. -/
structure InOrder (L : Log) : Prop where
  emitted : L.emitted <+: List.zipWith packet L.accepted L.returned
  requested : L.requested <+: L.accepted.map (·.pc)
  returned : L.returned.length ≤ L.requested.length
  inFlight : L.accepted.length ≤ L.emitted.length + 1

theorem Tracks.inOrder (h : Tracks r L) : InOrder L := by
  have hzip : ∀ (done : List Request) (words : List Word) (q : Request),
      done.length = words.length →
        List.zipWith packet (done ++ [q]) words = List.zipWith packet done words := by
    intro done words q hlen
    calc List.zipWith packet (done ++ [q]) words
        = List.zipWith packet (done ++ [q]) (words ++ []) := by rw [List.append_nil]
      _ = List.zipWith packet done words ++ List.zipWith packet [q] [] := List.zipWith_append hlen
      _ = List.zipWith packet done words := by simp
  cases h with
  | idle done words state len log =>
    subst log
    exact ⟨List.prefix_rfl, List.prefix_rfl, by simp [settled, len], by simp [settled, len]⟩
  | waitReq done words state len log =>
    subst log
    refine ⟨?_, ?_, by simp [settled, len], by simp [settled, len]⟩
    · simp only [settled, hzip done words _ len]
      exact List.prefix_rfl
    · simp [settled]
  | waitResp done words state len log =>
    subst log
    refine ⟨?_, List.prefix_rfl, by simp [settled, len], by simp [settled, len]⟩
    simp only [settled, hzip done words _ len]
    exact List.prefix_rfl
  | waitOut done words state len log =>
    subst log
    refine ⟨?_, List.prefix_rfl, by simp [len], by simp [settled, len]⟩
    simp [settled, List.zipWith_append len]

section Run

variable (R : Run machine)

def logAt (t : ℕ) : Log := R.observe ⟨[], [], [], []⟩ Log.watch t

def acceptsAt (t : ℕ) : Bool := pcFire (R.state t) (R.input t)
def emitsAt (t : ℕ) : Bool := outFire (R.input t) (R.state t)

/-- The memory answers each request at most once, and in a later cycle. -/
def OneResponse : Prop :=
  ∀ t, (R.input t).memResp.valid = true →
    (logAt R t).returned.length < (logAt R t).requested.length

/-- The memory takes requests again and again and answers those it has taken, and the
consumer takes packets again and again. -/
structure Fair : Prop where
  ready : R.Recurs fun i => i.memReqReady = true
  answer : ∀ t, (logAt R t).returned.length < (logAt R t).requested.length →
    ∃ u, t ≤ u ∧ (R.input u).memResp.valid = true
  out : R.Recurs fun i => i.outReady = true

variable {R} {t : ℕ}

theorem tracks (h : OneResponse R) (t : ℕ) : Tracks (R.state t) (logAt R t) := by
  induction t with
  | zero => exact Tracks.idle [] [] R.init.state rfl rfl
  | succ t ih =>
    rw [R.step t]
    exact ih.next (h t)

/-- Waiting in a state for an event of the environment. -/
theorem first_leave (event : In → Bool) {st : State} (hs : (R.state t).state = st)
    (hstay : ∀ i s, s.state = st → event i = false → (next s i).state = st)
    (hev : ∃ u, t ≤ u ∧ event (R.input u) = true) :
    ∃ u, t ≤ u ∧ event (R.input u) = true ∧ (R.state u).state = st := by
  obtain ⟨u, htu, he, hwait, _⟩ := Run.first_event (R := R) (P := fun s => s.state = st)
    (fun i _ => event i) hs hstay (fun _ => hev)
  exact ⟨u, htu, he, hwait u htu le_rfl⟩

theorem state_at_succ (t : ℕ) : R.state (t + 1) = next (R.state t) (R.input t) := R.step t

/-- A waiting packet is emitted when its consumer is ready again. -/
theorem emits_of_waitOut (hfair : Fair R) (hs : (R.state t).state = .waitOut) :
    ∃ u, t ≤ u ∧ emitsAt R u = true := by
  obtain ⟨u, htu, hready, hu⟩ := first_leave (fun i => i.outReady) hs
    (fun i s hs ho => by simp [next, hs, ho]) (hfair.out t)
  exact ⟨u, htu, by simp [emitsAt, outFire, outValid, hu, hready]⟩

theorem emits_of_waitResp (h : OneResponse R) (hfair : Fair R)
    (hs : (R.state t).state = .waitResp) : ∃ u, t ≤ u ∧ emitsAt R u = true := by
  have hasked : (logAt R t).returned.length < (logAt R t).requested.length := by
    cases tracks h t with
    | waitResp done words state len log => simp [log, settled, len]
    | idle done words state => simp [hs] at state
    | waitReq done words state => simp [hs] at state
    | waitOut done words state => simp [hs] at state
  obtain ⟨u, htu, hvalid, hu⟩ := first_leave (fun i => i.memResp.valid) hs
    (fun i s hs hv => by simp [next, hs, hv]) (hfair.answer t hasked)
  cases ho : (R.input u).outReady with
  | true => exact ⟨u, htu, by simp [emitsAt, outFire, outValid, isWaitingRespMeetValid, hu, hvalid, ho]⟩
  | false =>
    have hnext : (R.state (u + 1)).state = .waitOut := by
      simp [state_at_succ, next, hu, hvalid, ho]
    rcases emits_of_waitOut hfair hnext with ⟨v, huv, hv⟩
    exact ⟨v, by omega, hv⟩

theorem emits_of_busy (h : OneResponse R) (hfair : Fair R) (hs : (R.state t).state ≠ .idle) :
    ∃ u, t ≤ u ∧ emitsAt R u = true := by
  cases hst : (R.state t).state with
  | idle => exact absurd hst hs
  | waitResp => exact emits_of_waitResp h hfair hst
  | waitOut => exact emits_of_waitOut hfair hst
  | waitReq =>
    obtain ⟨u, htu, hready, hu⟩ := first_leave (fun i => i.memReqReady) hst
      (fun i s hs hm => by simp [next, pendingReqFire, hs, hm]) (hfair.ready t)
    have hnext : (R.state (u + 1)).state = .waitResp := by
      simp [state_at_succ, next, pendingReqFire, pendingReqValid, hu, hready]
    rcases emits_of_waitResp h hfair hnext with ⟨v, huv, hv⟩
    exact ⟨v, by omega, hv⟩

/-- Nothing is added to the emitted packets before the next emission. -/
theorem emitted_kept {u : ℕ} (htu : t ≤ u) (hno : ∀ k, t ≤ k → k < u → emitsAt R k = false) :
    (logAt R u).emitted = (logAt R t).emitted := by
  induction u, htu using Nat.le_induction with
  | base => rfl
  | succ u htu ih =>
    have hstep : (logAt R (u + 1)).emitted =
        (logAt R u).emitted ++ (if emitsAt R u then [outBits (R.state u) (R.input u)] else []) :=
      rfl
    rw [hstep, hno u htu (by omega), ih fun k htk hku => hno k htk (by omega)]
    simp

/-- The pc that was accepted as number `n` is emitted as number `n`. -/
theorem emits_accepted (h : OneResponse R) (hfair : Fair R) (hacc : acceptsAt R t = true) :
    ∃ u, t < u ∧ emitsAt R u = true ∧
      (logAt R u).emitted.length = (logAt R t).accepted.length := by
  have hgrow : (logAt R (t + 1)).accepted.length = (logAt R t).accepted.length + 1 := by
    have hstep : (logAt R (t + 1)).accepted = (logAt R t).accepted ++
        (if acceptsAt R t then [accepted (R.state t) (R.input t)] else []) := rfl
    simp [hstep, hacc]
  -- the slot is filled, and the log counts one packet less than accepted pcs
  have hbusy : (R.state (t + 1)).state ≠ .idle ∧
      (logAt R (t + 1)).emitted.length + 1 = (logAt R (t + 1)).accepted.length := by
    cases tracks h (t + 1) with
    | idle done words state =>
      have hready : pcReady (R.state t) (R.input t) = true ∧ (R.input t).pcValid = true := by
        simpa [acceptsAt, pcFire, and_comm] using hacc
      simp only [state_at_succ] at state
      cases hst : (R.state t).state <;> cases hm : (R.input t).memReqReady <;>
        simp_all [next, nxtStateWhenAcceptInput, pcReady_eq]
    | waitReq done words state len log => simp [log, state, settled, len]
    | waitResp done words state len log => simp [log, state, settled, len]
    | waitOut done words state len log => simp [log, state, settled, len]
  obtain ⟨u, htu, hu, _, hbefore⟩ := Run.first_event (R := R) (P := fun _ => True) outFire trivial
    (fun _ _ _ _ => trivial) (fun _ => emits_of_busy h hfair hbusy.1)
  refine ⟨u, by omega, hu, ?_⟩
  rw [emitted_kept htu hbefore]
  omega

end Run

/-- For every pattern of the four handshakes, under a memory that answers each request at most
once and not in the cycle of the request: the emitted packets are the accepted pcs in order,
each with the id, prediction and epoch of its acceptance and with the word that memory
returned for it; requests are made for the accepted pcs in order; at most one accepted pc
has not been emitted yet; and it is emitted if memory and consumer go on. -/
theorem one_packet_per_pc (R : Run machine) (h : OneResponse R) :
    (∀ t, InOrder (logAt R t)) ∧
      (Fair R → ∀ t, acceptsAt R t = true →
        ∃ u, t < u ∧ emitsAt R u = true ∧
          (logAt R u).emitted.length = (logAt R t).accepted.length) :=
  ⟨fun t => (tracks h t).inOrder, fun hfair _ => emits_accepted h hfair⟩

/-- Two pcs one behind the other.  Memory is busy when the first is accepted and its packet
has to wait; the second is accepted in the cycle that takes this packet, and answered and
taken in the next. -/
def twoFetches (t : ℕ) : In where
  pcValid := t == 0 || t == 3
  pc := if t = 0 then 0x80000010#32 else 0x80000014#32
  epoch := true
  predNext := ⟨if t = 0 then 0x80000014#32 else 0x80000018#32, false, false⟩
  memReqReady := t != 0
  memResp := ⟨t == 2 || t == 4, if t = 2 then 0x00112223#32 else 0x00000013#32⟩
  outReady := t != 2

def twoFetchesRun : Run machine :=
  machine.runFrom twoFetches
    ⟨.idle, ⟨0, ⟨0, false, false⟩, 0, false⟩, ⟨0, ⟨0, false, false⟩, 0, false⟩, 0, 0⟩ ⟨rfl, rfl⟩

theorem twoFetchesRun_idle {t : ℕ} (ht : 5 ≤ t) : (twoFetchesRun.state t).state = .idle := by
  induction t, ht using Nat.le_induction with
  | base => decide
  | succ t ht ih =>
    have hpc : (twoFetchesRun.input t).pcValid = false := by
      show (t == 0 || t == 3) = false
      simp
      omega
    rw [state_at_succ]
    simp [next, ih, nxtStateWhenAcceptInput, hpc]

theorem one_packet_per_pc_twoFetches :
    OneResponse twoFetchesRun ∧ Fair twoFetchesRun ∧ InOrder (logAt twoFetchesRun 5) ∧
      (logAt twoFetchesRun 5).emitted =
        [⟨0x00112223#32, 0x80000010#32, 1, true, ⟨0x80000014#32, false, false⟩⟩,
          ⟨0x00000013#32, 0x80000014#32, 2, true, ⟨0x80000018#32, false, false⟩⟩] ∧
      emitsAt twoFetchesRun 3 = true ∧ acceptsAt twoFetchesRun 3 = true ∧
      ∃ u, 3 < u ∧ emitsAt twoFetchesRun u = true ∧ (logAt twoFetchesRun u).emitted.length = 1 := by
  have hone : OneResponse twoFetchesRun := by
    intro t hv
    have ht : t = 2 ∨ t = 4 := by
      change (t == 2 || t == 4) = true at hv
      simpa using hv
    rcases ht with rfl | rfl <;> decide
  have hfair : Fair twoFetchesRun := by
    refine ⟨fun t => ⟨t + 1, by omega, rfl⟩, fun t hasked => ⟨4, ?_, rfl⟩,
      fun t => ⟨t + 3, by omega, rfl⟩⟩
    -- from cycle 5 on nothing is outstanding
    by_contra hlate
    have hidle := twoFetchesRun_idle (t := t) (by omega)
    cases tracks hone t with
    | idle done words _ len log => simp [log, settled, len] at hasked
    | waitReq _ _ state => simp [hidle] at state
    | waitResp _ _ state => simp [hidle] at state
    | waitOut _ _ state => simp [hidle] at state
  have hrun := one_packet_per_pc twoFetchesRun hone
  exact ⟨hone, hfair, hrun.1 5, by decide, by decide, by decide, hrun.2 hfair 3 (by decide)⟩

end IFU
end Core
end Jyd
