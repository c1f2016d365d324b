import Jyd.Hdl.Axi4
import Jyd.Hdl.LeadsTo
import Jyd.Soc.JydDevices

/-!
# DualSimpleBusToAXI4 — two simple buses on one AXI4 port

The bridge of `CPUTop` takes one request at a time, the data side first, and carries
it out as one single-beat transaction before it takes the next.  AW and W are sent
in parallel and may be taken in either order.
-/

namespace Jyd
namespace Soc
namespace DualSimpleBusToAXI4

open Hdl Jyd.Core

inductive State
  | idle
  | sendAR
  | waitR
  | sendAWW
  | waitB
  deriving DecidableEq, Repr

structure Regs where
  state : State
  selLSU : Bool
  reqAddr : Word
  reqSize : BitVec 3
  reqWData : Word
  reqWMask : BitVec 4
  reqWEn : Bool
  awSent : Bool
  wSent : Bool
  deriving DecidableEq, Repr

structure In where
  ifu : BusReq
  lsu : BusReq
  out : Axi4.Slave
  deriving DecidableEq, Repr

inductive Requester
  | ifu
  | lsu
  deriving DecidableEq, Repr

variable (i : In) (r : Regs)

/-! ## Wires -/

def req : Requester → BusReq
  | .ifu => i.ifu
  | .lsu => i.lsu

def takeLSU : Bool := i.lsu.valid
def sel : MemReq := if takeLSU i then i.lsu.req else i.ifu.req
def hasReq : Bool := i.lsu.valid || i.ifu.valid

def reqReady : Requester → Bool
  | .ifu => r.state == .idle && !takeLSU i
  | .lsu => r.state == .idle

/-- The AXI4 wires of the bridge. -/
def out : Axi4.Master where
  ar :=
    if r.state == .sendAR then ⟨true, ⟨r.reqAddr, 0, 0, r.reqSize, Axi4.INCR⟩⟩
    else ⟨false, ⟨0, 0, 0, 0, 0⟩⟩
  rready := r.state == .waitR
  aw :=
    if r.state == .sendAWW then ⟨!r.awSent, ⟨r.reqAddr, 0, 0, r.reqSize, Axi4.INCR⟩⟩
    else ⟨false, ⟨0, 0, 0, 0, 0⟩⟩
  w :=
    if r.state == .sendAWW then ⟨!r.wSent, ⟨r.reqWData, r.reqWMask, true⟩⟩
    else ⟨false, ⟨0, 0, false⟩⟩
  bready := r.state == .waitB

def resp (q : Requester) : Valid Word :=
  let mine := r.selLSU == decide (q = .lsu)
  if r.state == .waitR && i.out.r.valid && mine then ⟨true, i.out.r.bits.data⟩
  else if r.state == .waitB && i.out.b.valid then ⟨mine, 0⟩
  else ⟨false, 0⟩

/-! ## One clock edge -/

def nextState : State :=
  match r.state with
  | .idle => if hasReq i then (if (sel i).wen then .sendAWW else .sendAR) else .idle
  | .sendAR => if i.out.arready then .waitR else .sendAR
  | .waitR => if i.out.r.valid then .idle else .waitR
  | .sendAWW =>
    if (r.awSent || i.out.awready) && (r.wSent || i.out.wready) then .waitB else .sendAWW
  | .waitB => if i.out.b.valid then .idle else .waitB

def next : Regs :=
  if r.state == .idle && hasReq i then
    { state := nextState i r
      selLSU := takeLSU i
      reqAddr := (sel i).addr
      reqSize := (sel i).size
      reqWData := (sel i).wdata
      reqWMask := (sel i).wmask
      reqWEn := (sel i).wen
      awSent := false
      wSent := false }
  else
    { r with
      state := nextState i r
      awSent := r.awSent || Axi4.awFire (out r) i.out
      wSent := r.wSent || Axi4.wFire (out r) i.out }

structure Reset (r : Regs) : Prop where
  state : r.state = .idle
  selLSU : r.selLSU = false
  awSent : r.awSent = false
  wSent : r.wSent = false

def machine : Machine In Regs where
  init := Reset
  next := next

/-! ## A request in flight -/

def accepts (q : Requester) : Bool := (req i q).valid && reqReady i r q

/-- The registers hold the request `b` of `q`, and the bridge is in the given state. -/
structure Holds (q : Requester) (b : MemReq) (state : State) (r : Regs) : Prop where
  state : r.state = state
  selLSU : r.selLSU = decide (q = .lsu)
  addr : r.reqAddr = b.addr
  size : r.reqSize = b.size
  data : r.reqWData = b.wdata
  mask : r.reqWMask = b.wmask

variable {i r} {q q' : Requester} {b : MemReq} {st : State}

theorem accepts_iff : accepts i r q = true ↔
    r.state = .idle ∧ (req i q).valid = true ∧ (q = .ifu → i.lsu.valid = false) := by
  cases q <;> simp only [accepts, reqReady, takeLSU, req] <;> grind

/-- The data side goes first, so one request is taken at a time. -/
theorem accepts_unique (h : accepts i r q = true) (h' : accepts i r q' = true) : q' = q := by
  rcases accepts_iff.mp h with ⟨_, hv, hlsu⟩
  rcases accepts_iff.mp h' with ⟨_, hv', hlsu'⟩
  cases q <;> cases q' <;> simp_all [req]

theorem sel_of_accepts (h : accepts i r q = true) : sel i = (req i q).req ∧ hasReq i = true ∧
    takeLSU i = decide (q = .lsu) := by
  rcases accepts_iff.mp h with ⟨_, hv, hlsu⟩
  cases q <;> simp_all [req, sel, takeLSU, hasReq]

theorem idle_of_accepts (h : accepts i r q = true) : r.state = .idle := (accepts_iff.mp h).1

/-- The edge after an accepted request. -/
theorem holds_of_accepts (h : accepts i r q = true) :
    Holds q (req i q).req (if (req i q).req.wen then .sendAWW else .sendAR) (next i r) ∧
      (next i r).awSent = false ∧ (next i r).wSent = false := by
  have hidle := idle_of_accepts h
  rcases sel_of_accepts h with ⟨hsel, hhas, htake⟩
  have hnext : (r.state == .idle && hasReq i) = true := by simp [hidle, hhas]
  rw [next, if_pos hnext]
  refine ⟨⟨?_, htake, ?_, ?_, ?_, ?_⟩, rfl, rfl⟩
  · simp [nextState, hidle, hhas, hsel]
  all_goals simp only [hsel]

/-- Outside the idle state the held request stays. -/
theorem Holds.next (h : Holds q b st r) (hst : st ≠ .idle) :
    Holds q b (nextState i r) (next i r) := by
  have hidle : (r.state == .idle && hasReq i) = false := by simp [h.state, hst]
  rw [DualSimpleBusToAXI4.next, hidle]
  exact ⟨rfl, h.selLSU, h.addr, h.size, h.data, h.mask⟩

/-! ## What happens on the wires -/

/-- The transfers of one cycle on the five channels. -/
structure Fires where
  aw : Bool
  w : Bool
  b : Bool
  ar : Bool
  r : Bool
  deriving DecidableEq, Repr

variable (i r) in
def fires : Fires where
  aw := Axi4.awFire (out r) i.out
  w := Axi4.wFire (out r) i.out
  b := Axi4.bFire (out r) i.out
  ar := Axi4.arFire (out r) i.out
  r := Axi4.rFire (out r) i.out

theorem fires_eq : fires i r =
    match r.state with
    | .idle => ⟨false, false, false, false, false⟩
    | .sendAR => ⟨false, false, false, i.out.arready, false⟩
    | .waitR => ⟨false, false, false, false, i.out.r.valid⟩
    | .sendAWW => ⟨!r.awSent && i.out.awready, !r.wSent && i.out.wready, false, false, false⟩
    | .waitB => ⟨false, false, i.out.b.valid, false, false⟩ := by
  cases h : r.state <;>
    simp [fires, out, Axi4.awFire, Axi4.wFire, Axi4.bFire, Axi4.arFire, Axi4.rFire, h]

/-- The slave's answer that the bridge waits for. -/
def answered (s : Axi4.Slave) : State → Bool
  | .waitR => s.r.valid
  | .waitB => s.b.valid
  | _ => false

/-- A response is what the AXI4 side answers, for the requester that was taken. -/
theorem resp_valid (h : Holds q b st r) :
    (resp i r q').valid = (answered i.out st && decide (q' = q)) := by
  have hmine : (r.selLSU == decide (q' = .lsu)) = decide (q' = q) := by
    rw [h.selLSU]
    cases q <;> cases q' <;> rfl
  cases st with
  | waitR =>
    simp only [resp, h.state, hmine, answered]
    cases i.out.r.valid <;> cases decide (q' = q) <;> rfl
  | waitB =>
    simp only [resp, h.state, hmine, answered]
    cases i.out.b.valid <;> cases decide (q' = q) <;> rfl
  | idle => simp [resp, h.state, answered]
  | sendAR => simp [resp, h.state, answered]
  | sendAWW => simp [resp, h.state, answered]

theorem resp_bits (h : Holds q b .waitR r) (hv : i.out.r.valid = true) :
    (resp i r q).bits = i.out.r.bits.data := by
  have hmine : (r.selLSU == decide (q = .lsu)) = true := by simp [h.selLSU]
  simp [resp, h.state, hmine, hv]

theorem resp_idle (h : r.state = .idle) : resp i r q = ⟨false, 0⟩ := by simp [resp, h]

theorem awSent_next (h : r.state = .sendAWW) :
    (next i r).awSent = (r.awSent || i.out.awready) ∧
      (next i r).wSent = (r.wSent || i.out.wready) := by
  have hidle : (r.state == .idle && hasReq i) = false := by simp [h]
  rw [next, hidle]
  cases ha : r.awSent <;> cases hw : r.wSent <;> simp [out, Axi4.awFire, Axi4.wFire, h, ha, hw]

/-! ## Transactions of a run -/

section Run

variable (R : Run machine)

def acceptsAt (t : ℕ) (q : Requester) : Bool := accepts (R.input t) (R.state t) q
def requestAt (t : ℕ) (q : Requester) : MemReq := (req (R.input t) q).req
def firesAt (t : ℕ) : Fires := fires (R.input t) (R.state t)
def respAt (t : ℕ) (q : Requester) : Valid Word := resp (R.input t) (R.state t) q
def outAt (t : ℕ) : Axi4.Master := out (R.state t)
def slaveAt (t : ℕ) : Axi4.Slave := (R.input t).out

/-- Exactly one cycle after `t` and up to `t'` has the event, and it is cycle `a`. -/
def OnlyAt (event : ℕ → Bool) (t t' a : ℕ) : Prop :=
  t < a ∧ a ≤ t' ∧ ∀ k, t < k → k ≤ t' → (event k = true ↔ k = a)

def NeverIn (event : ℕ → Bool) (t t' : ℕ) : Prop := ∀ k, t < k → k ≤ t' → event k = false

/-- The request `b` of `q`, taken in cycle `t`, is carried out by cycle `t'`: one single-beat
transaction on the AXI4 side, and one response. -/
structure Served (t t' : ℕ) (q : Requester) (b : MemReq) : Prop where
  alone : ∀ q', NeverIn (fun k => acceptsAt R k q') t t'
  resp : OnlyAt (fun k => (respAt R k q).valid) t t' t'
  other : ∀ q', q' ≠ q → NeverIn (fun k => (respAt R k q').valid) t t'
  read : b.wen = false →
    (∃ a, OnlyAt (fun k => (firesAt R k).ar) t t' a ∧
      (outAt R a).ar.bits = ⟨b.addr, 0, 0, b.size, Axi4.INCR⟩) ∧
    OnlyAt (fun k => (firesAt R k).r) t t' t' ∧
    (respAt R t' q).bits = (slaveAt R t').r.bits.data ∧
    NeverIn (fun k => (firesAt R k).aw || (firesAt R k).w || (firesAt R k).b) t t'
  write : b.wen = true →
    (∃ a, OnlyAt (fun k => (firesAt R k).aw) t t' a ∧
      (outAt R a).aw.bits = ⟨b.addr, 0, 0, b.size, Axi4.INCR⟩) ∧
    (∃ a, OnlyAt (fun k => (firesAt R k).w) t t' a ∧
      (outAt R a).w.bits = ⟨b.wdata, b.wmask, true⟩) ∧
    OnlyAt (fun k => (firesAt R k).b) t t' t' ∧
    NeverIn (fun k => (firesAt R k).ar || (firesAt R k).r) t t'

variable {R} {t : ℕ}

theorem not_accepts_of_busy {k : ℕ} (h : (R.state k).state ≠ .idle) : acceptsAt R k q = false :=
  Bool.eq_false_iff.mpr fun ha => h (idle_of_accepts ha)

theorem step_holds {k : ℕ} (h : Holds q b st (R.state k)) (hst : st ≠ .idle) :
    Holds q b (nextState (R.input k) (R.state k)) (R.state (k + 1)) := by
  rw [R.step k]
  exact h.next hst

/-- Waiting in a state until the slave lets the bridge go on. -/
theorem first_leave (event : In → Bool) (h : Holds q b st (R.state t)) (hst : st ≠ .idle)
    (hstay : ∀ i s, Holds q b st s → event i = false → nextState i s = st)
    (hev : (∀ u, t ≤ u → Holds q b st (R.state u)) → ∃ u, t ≤ u ∧ event (R.input u) = true) :
    ∃ a, t ≤ a ∧ event (R.input a) = true ∧
      (∀ k, t ≤ k → k ≤ a → Holds q b st (R.state k)) ∧
      ∀ k, t ≤ k → k ≤ a → (event (R.input k) = true ↔ k = a) := by
  obtain ⟨a, hta, he, hholds, hno⟩ := Run.first_event (fun i _ => event i) h (by
    intro i s hs he
    have hnext := hs.next (i := i) hst
    rwa [hstay i s hs he] at hnext) hev
  refine ⟨a, hta, he, hholds, fun k htk hka => ⟨?_, ?_⟩⟩
  · intro hk
    by_contra hne
    exact absurd ((hno k htk (by omega)).symm.trans hk) (by decide)
  · rintro rfl
    exact he

/-- Two phases, the second of which ends with the answer of the slave. -/
structure Phases (R : Run machine) (t c t' : ℕ) (q : Requester) (b : MemReq) (send wait : State) :
    Prop where
  start : t < c
  wait_start : c < t'
  sends : ∀ k, t < k → k ≤ c → Holds q b send (R.state k)
  waits : ∀ k, c < k → k ≤ t' → Holds q b wait (R.state k)
  answers : ∀ k, c < k → k ≤ t' → (answered (slaveAt R k) wait = true ↔ k = t')

namespace Phases

variable {c t' : ℕ} {send wait : State}

theorem respAt_valid (h : Phases R t c t' q b send wait)
    (hsend : ∀ s, answered s send = false) {k : ℕ} (htk : t < k) (hkt : k ≤ t') :
    (respAt R k q').valid = true ↔ k = t' ∧ q' = q := by
  rcases Nat.lt_or_ge c k with hck | hkc
  · have hv := h.answers k hck hkt
    rw [respAt, resp_valid (h.waits k hck hkt), Bool.and_eq_true, decide_eq_true_eq]
    exact and_congr_left' hv
  · have hne : k ≠ t' := by
      have := h.wait_start
      omega
    rw [respAt, resp_valid (h.sends k htk hkc), hsend]
    simp [hne]

theorem busy (h : Phases R t c t' q b send wait) (hsend : send ≠ .idle) (hwait : wait ≠ .idle)
    {k : ℕ} (htk : t < k) (hkt : k ≤ t') : (R.state k).state ≠ .idle := by
  rcases Nat.lt_or_ge c k with hck | hkc
  · rw [(h.waits k hck hkt).state]
    exact hwait
  · rw [(h.sends k htk hkc).state]
    exact hsend

end Phases

theorem served_read (hr : Axi4.Responsive (outAt R) (slaveAt R)) (h : acceptsAt R t q = true)
    (hread : (requestAt R t q).wen = false) :
    ∃ t', t < t' ∧ Served R t t' q (requestAt R t q) := by
  have hstart : Holds q (requestAt R t q) .sendAR (R.state (t + 1)) := by
    have hholds := (holds_of_accepts h).1
    rw [show (req (R.input t) q).req.wen = false from hread] at hholds
    rw [R.step t]
    exact hholds
  -- `a` is the cycle of the AR handshake, `t'` the one of the R beat
  obtain ⟨a, hta, hara, hsend, honly⟩ := first_leave (fun i => i.out.arready) hstart
    (by decide) (by
      intro i s hs he
      simp [nextState, hs.state, he]) (by
      intro hall
      refine hr.ar (t + 1) fun u hu => ?_
      simp [outAt, out, (hall u hu).state])
  have hgo : Holds q (requestAt R t q) .waitR (R.state (a + 1)) := by
    have hnext := step_holds (hsend a hta le_rfl) (by decide)
    simpa [nextState, (hsend a hta le_rfl).state, hara] using hnext
  have harfire : Axi4.arFire (outAt R a) (slaveAt R a) = true := by
    have hready : (slaveAt R a).arready = true := hara
    simp [Axi4.arFire, outAt, out, (hsend a hta le_rfl).state, hready]
  obtain ⟨t', hat, hrt, hwait, hanswer⟩ := first_leave (fun i => i.out.r.valid) hgo
    (by decide) (by
      intro i s hs he
      simp [nextState, hs.state, he]) (fun _ => hr.r a harfire)
  have hph : Phases R t a t' q (requestAt R t q) .sendAR .waitR :=
    ⟨hta, hat, hsend, hwait, hanswer⟩
  -- in each of the two phases one channel is open and no other
  have hsends : ∀ k, t < k → k ≤ a →
      firesAt R k = ⟨false, false, false, (slaveAt R k).arready, false⟩ := by
    intro k htk hka
    rw [firesAt, fires_eq, (hsend k htk hka).state, slaveAt]
  have hwaits : ∀ k, a < k → k ≤ t' →
      firesAt R k = ⟨false, false, false, false, (slaveAt R k).r.valid⟩ := by
    intro k hak hkt
    rw [firesAt, fires_eq, (hwait k hak hkt).state, slaveAt]
  refine ⟨t', by omega, ?_, ⟨by omega, le_rfl, ?_⟩, ?_, fun _ => ⟨⟨a, ⟨by omega, by omega, ?_⟩, ?_⟩,
    ⟨by omega, le_rfl, ?_⟩, ?_, ?_⟩, fun hw => absurd (hread.symm.trans hw) (by decide)⟩
  · intro q' k htk hkt
    exact not_accepts_of_busy (hph.busy (by decide) (by decide) htk hkt)
  · intro k htk hkt
    exact (hph.respAt_valid (fun _ => rfl) htk hkt).trans (and_iff_left rfl)
  · intro q' hq' k htk hkt
    exact Bool.eq_false_iff.mpr fun hv =>
      hq' ((hph.respAt_valid (fun _ => rfl) htk hkt).mp hv).2
  · intro k htk hkt
    rcases Nat.lt_or_ge a k with hak | hka
    · have hne : k ≠ a := by omega
      simp [hwaits k hak hkt, hne]
    · simpa [hsends k htk hka, slaveAt] using honly k htk hka
  · have hk := hsend a hta le_rfl
    simp [outAt, out, hk.state, hk.addr, hk.size]
  · intro k htk hkt
    rcases Nat.lt_or_ge a k with hak | hka
    · simpa [hwaits k hak hkt, slaveAt] using hanswer k hak hkt
    · have hne : k ≠ t' := by omega
      simp [hsends k htk hka, hne]
  · exact resp_bits (hwait t' hat le_rfl) hrt
  · intro k htk hkt
    rcases Nat.lt_or_ge a k with hak | hka
    · simp [hwaits k hak hkt]
    · simp [hsends k htk hka]

/-! ### Writes: two channels, in either order -/

inductive Channel
  | aw
  | w

def sent (r : Regs) : Channel → Bool
  | .aw => r.awSent
  | .w => r.wSent

def ready (s : Axi4.Slave) : Channel → Bool
  | .aw => s.awready
  | .w => s.wready

theorem sent_next (h : r.state = .sendAWW) (ch : Channel) :
    sent (next i r) ch = (sent r ch || ready i.out ch) := by
  cases ch with
  | aw => exact (awSent_next h).1
  | w => exact (awSent_next h).2

theorem nextState_of_unsent (h : r.state = .sendAWW) {ch : Channel} (hs : sent r ch = false)
    (hr : ready i.out ch = false) : nextState i r = .sendAWW := by
  cases ch with
  | aw =>
    have hs' : r.awSent = false := hs
    have hr' : i.out.awready = false := hr
    simp [nextState, h, hs', hr']
  | w =>
    have hs' : r.wSent = false := hs
    have hr' : i.out.wready = false := hr
    simp [nextState, h, hs', hr']

theorem nextState_of_sent (h : r.state = .sendAWW)
    (hall : ∀ ch, (sent r ch || ready i.out ch) = true) : nextState i r = .waitB := by
  have haw : (r.awSent || i.out.awready) = true := hall .aw
  have hw : (r.wSent || i.out.wready) = true := hall .w
  simp [nextState, h, haw, hw]

def channelFires (f : Fires) : Channel → Bool
  | .aw => f.aw
  | .w => f.w

/-- The first cycle in which the slave takes the beat of a channel. -/
theorem first_ready (hr : Axi4.Responsive (outAt R) (slaveAt R)) {n : ℕ}
    (h : Holds q b .sendAWW (R.state n)) (ch : Channel) (hs : sent (R.state n) ch = false) :
    ∃ a, n ≤ a ∧ ready (slaveAt R a) ch = true ∧
      (∀ k, n ≤ k → k ≤ a → Holds q b .sendAWW (R.state k)) ∧
      ∀ k, n ≤ k → k < a → ready (slaveAt R k) ch = false := by
  obtain ⟨a, hna, ha, hholds, hno⟩ := Run.first_event
    (P := fun s => Holds q b .sendAWW s ∧ sent s ch = false) (fun i _ => ready i.out ch) ⟨h, hs⟩
    (by
      rintro i s ⟨hk, hsent⟩ hready
      have hnext := hk.next (i := i) (by decide)
      rw [nextState_of_unsent hk.state hsent hready] at hnext
      refine ⟨hnext, (sent_next hk.state ch).trans ?_⟩
      rw [hsent, hready]
      rfl)
    (by
      intro hall
      cases ch with
      | aw =>
        refine hr.aw n fun u hu => ?_
        have hsent : (R.state u).awSent = false := (hall u hu).2
        simp [outAt, out, (hall u hu).1.state, hsent]
      | w =>
        refine hr.w n fun u hu => ?_
        have hsent : (R.state u).wSent = false := (hall u hu).2
        simp [outAt, out, (hall u hu).1.state, hsent])
  exact ⟨a, hna, ha, fun k hnk hka => (hholds k hnk hka).1, hno⟩

/-- While the beats are sent, a channel has sent its beat once the slave has taken it. -/
theorem sent_eq {n c a : ℕ} {ch : Channel}
    (hsend : ∀ k, n ≤ k → k ≤ c → Holds q b .sendAWW (R.state k))
    (hs : sent (R.state n) ch = false) (hna : n ≤ a) (ha : ready (slaveAt R a) ch = true)
    (hno : ∀ k, n ≤ k → k < a → ready (slaveAt R k) ch = false) :
    ∀ k, n ≤ k → k ≤ c → sent (R.state k) ch = decide (a < k) := by
  intro k hnk
  induction k, hnk using Nat.le_induction with
  | base =>
    intro _
    rw [hs]
    simpa using hna
  | succ k hnk ih =>
    intro hkc
    rw [R.step k]
    refine (sent_next (hsend k hnk (by omega)).state ch).trans ?_
    rw [ih (by omega)]
    rcases Nat.lt_trichotomy k a with hlt | rfl | hgt
    · have hready : ready (R.input k).out ch = false := hno k hnk hlt
      simp [hready, show ¬ a < k by omega, show ¬ a < k + 1 by omega]
    · have hready : ready (R.input k).out ch = true := ha
      simp [hready]
    · simp [hgt, show a < k + 1 by omega]

/-- Both beats of a write are taken once, and the bridge then waits for the response. -/
theorem both_sent (hr : Axi4.Responsive (outAt R) (slaveAt R)) {n : ℕ}
    (h : Holds q b .sendAWW (R.state n)) (hs : ∀ ch, sent (R.state n) ch = false) :
    ∃ (taken : Channel → ℕ) (c : ℕ), (∀ ch, n ≤ taken ch ∧ taken ch ≤ c) ∧ (∃ ch, taken ch = c) ∧
      (∀ k, n ≤ k → k ≤ c → Holds q b .sendAWW (R.state k) ∧
        ∀ ch, channelFires (firesAt R k) ch = decide (k = taken ch)) ∧
      Holds q b .waitB (R.state (c + 1)) := by
  choose taken hna hat hholds hno using fun ch => first_ready hr h ch (hs ch)
  -- the later channel keeps the bridge in the sending state
  obtain ⟨last, hlast⟩ : ∃ last, ∀ ch, taken ch ≤ taken last := by
    rcases Nat.le_total (taken .aw) (taken .w) with hle | hle
    · exact ⟨.w, fun ch => by cases ch; exacts [hle, le_rfl]⟩
    · exact ⟨.aw, fun ch => by cases ch; exacts [le_rfl, hle]⟩
  have hsent : ∀ ch k, n ≤ k → k ≤ taken last → sent (R.state k) ch = decide (taken ch < k) :=
    fun ch => sent_eq (hholds last) (hs ch) (hna ch) (hat ch) (hno ch)
  refine ⟨taken, taken last, fun ch => ⟨hna ch, hlast ch⟩, ⟨last, rfl⟩, ?_, ?_⟩
  · intro k hnk hkc
    have hk := hholds last k hnk hkc
    refine ⟨hk, fun ch => ?_⟩
    have hfire : channelFires (firesAt R k) ch =
        (!sent (R.state k) ch && ready (slaveAt R k) ch) := by
      rw [firesAt, fires_eq, hk.state]
      cases ch <;> rfl
    rw [hfire, hsent ch k hnk hkc]
    rcases Nat.lt_trichotomy k (taken ch) with hlt | heq | hgt
    · simp [hno ch k hnk hlt, show k ≠ taken ch by omega]
    · simp [heq, hat ch]
    · simp [hgt, show k ≠ taken ch by omega]
  · have hk := hholds last (taken last) (hna last) le_rfl
    have hnext := step_holds hk (by decide)
    rw [nextState_of_sent hk.state ?_] at hnext
    · exact hnext
    · intro ch
      rw [hsent ch _ (hna last) le_rfl]
      rcases Nat.lt_or_ge (taken ch) (taken last) with hlt | hge
      · simp [hlt]
      · have heq : taken ch = taken last := Nat.le_antisymm (hlast ch) hge
        have hready : ready (R.input (taken last)).out ch = true := by
          rw [← heq]
          exact hat ch
        simp [hready]

theorem served_write (hr : Axi4.Responsive (outAt R) (slaveAt R)) (h : acceptsAt R t q = true)
    (hwrite : (requestAt R t q).wen = true) :
    ∃ t', t < t' ∧ Served R t t' q (requestAt R t q) := by
  have hstart : Holds q (requestAt R t q) .sendAWW (R.state (t + 1)) ∧
      ∀ ch, sent (R.state (t + 1)) ch = false := by
    have hholds := holds_of_accepts h
    rw [show (req (R.input t) q).req.wen = true from hwrite] at hholds
    rw [R.step t]
    exact ⟨hholds.1, fun ch => by cases ch; exacts [hholds.2.1, hholds.2.2]⟩
  -- `taken` gives the handshake of each channel, `c` is the later of the two
  obtain ⟨taken, c, hat, ⟨last, hlast⟩, hsend, hgo⟩ := both_sent hr hstart.1 hstart.2
  have hfired : ∀ ch, channelFires (firesAt R (taken ch)) ch = true := by
    intro ch
    rw [(hsend (taken ch) (hat ch).1 (hat ch).2).2 ch]
    simp
  obtain ⟨t', hct, hbt, hwait, hanswer⟩ := first_leave (fun i => i.out.b.valid) hgo
    (by decide) (by
      intro i s hs he
      simp [nextState, hs.state, he]) (by
      intro _
      -- the slave owes its response from the later handshake on
      rcases hr.b (taken .aw) (taken .w) (hfired .aw) (hfired .w) with ⟨u, haw, hw, hb⟩
      refine ⟨u, ?_, hb⟩
      cases last <;> omega)
  have htc : t < c := by
    have hlow := (hat last).1
    omega
  have hph : Phases R t c t' q (requestAt R t q) .sendAWW .waitB :=
    ⟨htc, hct, fun k htk hkc => (hsend k htk hkc).1, hwait, hanswer⟩
  have hsends : ∀ k, t < k → k ≤ c → firesAt R k =
      ⟨decide (k = taken .aw), decide (k = taken .w), false, false, false⟩ := by
    intro k htk hkc
    have haw : (firesAt R k).aw = _ := (hsend k htk hkc).2 .aw
    have hw : (firesAt R k).w = _ := (hsend k htk hkc).2 .w
    rw [firesAt, fires_eq, (hsend k htk hkc).1.state] at haw hw ⊢
    rw [← haw, ← hw]
  have hwaits : ∀ k, c < k → k ≤ t' →
      firesAt R k = ⟨false, false, (slaveAt R k).b.valid, false, false⟩ := by
    intro k hck hkt
    rw [firesAt, fires_eq, (hwait k hck hkt).state, slaveAt]
  have honly : ∀ ch, OnlyAt (fun k => channelFires (firesAt R k) ch) t t' (taken ch) := by
    intro ch
    have hch := hat ch
    refine ⟨by omega, by omega, ?_⟩
    intro k htk hkt
    rcases Nat.lt_or_ge c k with hck | hkc
    · have hne : k ≠ taken ch := by omega
      cases ch <;> simp [channelFires, hwaits k hck hkt, hne]
    · cases ch <;> simp [channelFires, hsends k htk hkc]
  refine ⟨t', by omega, ?_, ⟨by omega, le_rfl, ?_⟩, ?_,
    fun hread => absurd (hwrite.symm.trans hread) (by decide),
    fun _ => ⟨⟨taken .aw, honly .aw, ?_⟩, ⟨taken .w, honly .w, ?_⟩, ⟨by omega, le_rfl, ?_⟩, ?_⟩⟩
  · intro q' k htk hkt
    exact not_accepts_of_busy (hph.busy (by decide) (by decide) htk hkt)
  · intro k htk hkt
    exact (hph.respAt_valid (fun _ => rfl) htk hkt).trans (and_iff_left rfl)
  · intro q' hq' k htk hkt
    exact Bool.eq_false_iff.mpr fun hv =>
      hq' ((hph.respAt_valid (fun _ => rfl) htk hkt).mp hv).2
  · have hk := (hsend (taken .aw) (hat .aw).1 (hat .aw).2).1
    simp [outAt, out, hk.state, hk.addr, hk.size]
  · have hk := (hsend (taken .w) (hat .w).1 (hat .w).2).1
    simp [outAt, out, hk.state, hk.data, hk.mask]
  · intro k htk hkt
    rcases Nat.lt_or_ge c k with hck | hkc
    · simpa [hwaits k hck hkt, slaveAt] using hanswer k hck hkt
    · have hne : k ≠ t' := by omega
      simp [hsends k htk hkc, hne]
  · intro k htk hkt
    rcases Nat.lt_or_ge c k with hck | hkc
    · simp [hwaits k hck hkt]
    · simp [hsends k htk hkc]

/-! ### The shortest transaction -/

variable (R) in
/-- The slave takes the address, and the data of a write, in the cycle after the request was
taken, and answers in the cycle after that. -/
def Prompt (t : ℕ) (q : Requester) : Prop :=
  if (requestAt R t q).wen then
    ((slaveAt R (t + 1)).awready && (slaveAt R (t + 1)).wready && (slaveAt R (t + 2)).b.valid) = true
  else ((slaveAt R (t + 1)).arready && (slaveAt R (t + 2)).r.valid) = true

/-- No response comes in the next cycle, and one in the cycle after that only from a slave
without wait states. -/
theorem resp_of_accepts (h : acceptsAt R t q = true) :
    (respAt R (t + 1) q).valid = false ∧
      ((respAt R (t + 2) q).valid = true ↔ Prompt R t q) := by
  have hstart := holds_of_accepts h
  rw [show DualSimpleBusToAXI4.next (R.input t) (R.state t) = R.state (t + 1) from
    (R.step t).symm] at hstart
  have hreq : (req (R.input t) q).req = requestAt R t q := rfl
  rw [hreq] at hstart
  cases hw : (requestAt R t q).wen with
  | false =>
    rw [hw] at hstart
    have hsend : Holds q (requestAt R t q) .sendAR (R.state (t + 1)) := hstart.1
    have hnext := step_holds hsend (by decide)
    refine ⟨by rw [respAt, resp_valid hsend]; rfl, ?_⟩
    rw [respAt, resp_valid hnext]
    simp only [nextState, hsend.state, Prompt, hw, slaveAt]
    cases (R.input (t + 1)).out.arready <;> simp [answered]
  | true =>
    rw [hw] at hstart
    have hsend : Holds q (requestAt R t q) .sendAWW (R.state (t + 1)) := hstart.1
    have hnext := step_holds hsend (by decide)
    refine ⟨by rw [respAt, resp_valid hsend]; rfl, ?_⟩
    rw [respAt, resp_valid hnext]
    simp only [nextState, hsend.state, hstart.2.1, hstart.2.2, Prompt, hw, slaveAt]
    cases (R.input (t + 1)).out.awready <;> cases (R.input (t + 1)).out.wready <;>
      simp [answered]

/-! ### Nothing happens outside a transaction -/

theorem leaves_of_resp (h : (resp i r q).valid = true) : nextState i r = .idle := by
  cases hs : r.state with
  | waitR =>
    have hv : i.out.r.valid = true := by
      cases hv : i.out.r.valid
      · simp [resp, hs, hv] at h
      · rfl
    simp [nextState, hs, hv]
  | waitB =>
    have hv : i.out.b.valid = true := by
      cases hv : i.out.b.valid
      · simp [resp, hs, hv] at h
      · rfl
    simp [nextState, hs, hv]
  | idle => simp [resp, hs] at h
  | sendAR => simp [resp, hs] at h
  | sendAWW => simp [resp, hs] at h

theorem state_at_succ (R : Run machine) (k : ℕ) :
    (R.state (k + 1)).state = nextState (R.input k) (R.state k) := by
  rw [R.step k]
  change (next _ _).state = _
  rw [next]
  split <;> rfl

theorem accepts_of_leaves_idle (h : r.state = .idle) (hn : nextState i r ≠ .idle) :
    ∃ q, accepts i r q = true := by
  have hhas : hasReq i = true := by
    by_contra hno
    exact hn (by simp [nextState, h, hno])
  cases hl : i.lsu.valid with
  | true => exact ⟨.lsu, accepts_iff.mpr ⟨h, hl, by simp⟩⟩
  | false => exact ⟨.ifu, accepts_iff.mpr ⟨h, by simpa [req, hasReq, hl] using hhas, fun _ => hl⟩⟩

/-- A busy bridge works for a request that it has taken and not answered. -/
theorem accepted_of_busy {k : ℕ} (h : (R.state k).state ≠ .idle) :
    ∃ t q, t < k ∧ acceptsAt R t q = true ∧
      ∀ j, t < j → j < k → ∀ q', (respAt R j q').valid = false := by
  induction k with
  | zero => exact absurd R.init.state h
  | succ k ih =>
    rw [state_at_succ] at h
    by_cases hidle : (R.state k).state = .idle
    · rcases accepts_of_leaves_idle hidle h with ⟨q, hq⟩
      exact ⟨k, q, Nat.lt_succ_self k, hq, fun j hkj hjk => absurd hkj (by omega)⟩
    · rcases ih hidle with ⟨t, q, htk, hq, hsilent⟩
      refine ⟨t, q, by omega, hq, fun j htj hjk q' => ?_⟩
      rcases Nat.lt_succ_iff_lt_or_eq.mp hjk with hlt | rfl
      · exact hsilent j htj hlt q'
      · exact Bool.eq_false_iff.mpr fun hv => h (leaves_of_resp hv)

theorem busy_of_event {k : ℕ}
    (h : firesAt R k ≠ ⟨false, false, false, false, false⟩ ∨ ∃ q, (respAt R k q).valid = true) :
    (R.state k).state ≠ .idle := by
  intro hidle
  rcases h with hf | ⟨q, hv⟩
  · exact hf (by rw [firesAt, fires_eq, hidle])
  · rw [respAt, resp_idle hidle] at hv
    cases hv

/-! ### Unfinished transactions -/

variable (R) in
/-- What the bridge has done by cycle `T` for a request that was taken in cycle `t` and is not
answered: each beat was sent at most once, with the fields of the request. -/
structure Pending (t T : ℕ) (b : MemReq) : Prop where
  alone : ∀ q, NeverIn (fun k => acceptsAt R k q) t T
  ar : ∃ a, ∀ k, t < k → k ≤ T → (firesAt R k).ar = true →
    k = a ∧ b.wen = false ∧ (outAt R k).ar.bits = ⟨b.addr, 0, 0, b.size, Axi4.INCR⟩
  aw : ∃ a, ∀ k, t < k → k ≤ T → (firesAt R k).aw = true →
    k = a ∧ b.wen = true ∧ (outAt R k).aw.bits = ⟨b.addr, 0, 0, b.size, Axi4.INCR⟩
  w : ∃ a, ∀ k, t < k → k ≤ T → (firesAt R k).w = true →
    k = a ∧ b.wen = true ∧ (outAt R k).w.bits = ⟨b.wdata, b.wmask, true⟩
  unanswered : NeverIn (fun k => (firesAt R k).r || (firesAt R k).b) t T

/-- An event that happens in one cycle only happens at most once in every shorter time. -/
theorem OnlyAt.once {event : ℕ → Bool} {P : ℕ → Prop} {t' a T : ℕ} (h : OnlyAt event t t' a)
    (hT : T < t') (hP : P a) : ∃ a, ∀ k, t < k → k ≤ T → event k = true → k = a ∧ P k := by
  refine ⟨a, ?_⟩
  intro k htk hkT hevent
  have hk : k = a := (h.2.2 k htk (by omega)).mp hevent
  exact ⟨hk, hk ▸ hP⟩

theorem NeverIn.once {event : ℕ → Bool} {P : ℕ → Prop} {t' T : ℕ} (h : NeverIn event t t')
    (hT : T < t') : ∃ a, ∀ k, t < k → k ≤ T → event k = true → k = a ∧ P k := by
  refine ⟨0, ?_⟩
  intro k htk hkT hevent
  have hno := h k htk (by omega)
  exact absurd (hno.symm.trans hevent) Bool.false_ne_true

theorem NeverIn.of_imp {event event' : ℕ → Bool} {t' : ℕ} (h : NeverIn event' t t')
    (himp : ∀ k, event k = true → event' k = true) : NeverIn event t t' := by
  intro k htk hkt
  refine Bool.eq_false_iff.mpr ?_
  intro hevent
  exact Bool.false_ne_true ((h k htk hkt).symm.trans (himp k hevent))

/-- A transaction that is answered after cycle `T` is pending in it. -/
theorem Served.pending {T t' : ℕ} (h : Served R t t' q b) (hT : T < t') : Pending R t T b := by
  have halone : ∀ q', NeverIn (fun k => acceptsAt R k q') t T :=
    fun q' k htk hkT => h.alone q' k htk (by omega)
  cases hw : b.wen with
  | false =>
    obtain ⟨⟨a, har, hbits⟩, hr, -, hnone⟩ := h.read hw
    have haw : NeverIn (fun k => (firesAt R k).aw) t t' := hnone.of_imp (by simp +contextual)
    have hwf : NeverIn (fun k => (firesAt R k).w) t t' := hnone.of_imp (by simp +contextual)
    refine ⟨halone, har.once hT ⟨hw, hbits⟩, haw.once hT, hwf.once hT, ?_⟩
    intro k htk hkT
    have hno : (firesAt R k).r = false := Bool.eq_false_iff.mpr fun hfire =>
      absurd ((hr.2.2 k htk (by omega)).mp hfire) (by omega)
    have hb := hnone k htk (by omega)
    simp only [Bool.or_eq_false_iff] at hb ⊢
    exact ⟨hno, hb.2⟩
  | true =>
    obtain ⟨⟨a, haw, hawBits⟩, ⟨c, hwf, hwBits⟩, hb, hnone⟩ := h.write hw
    have har : NeverIn (fun k => (firesAt R k).ar) t t' := hnone.of_imp (by simp +contextual)
    refine ⟨halone, har.once hT, haw.once hT ⟨hw, hawBits⟩, hwf.once hT ⟨hw, hwBits⟩, ?_⟩
    intro k htk hkT
    have hno : (firesAt R k).b = false := Bool.eq_false_iff.mpr fun hfire =>
      absurd ((hb.2.2 k htk (by omega)).mp hfire) (by omega)
    have hr := hnone k htk (by omega)
    simp only [Bool.or_eq_false_iff] at hr ⊢
    exact ⟨hr.2, hno⟩

/-- The run whose slave is eager after cycle `T`. -/
def extend (R : Run machine) (T : ℕ) : Run machine :=
  machine.runFrom (fun k => if k ≤ T then R.input k else { R.input k with out := Axi4.eager })
    (R.state 0) R.init

theorem extend_input (R : Run machine) {T k : ℕ} (h : k ≤ T) :
    (extend R T).input k = R.input k :=
  if_pos h

theorem extend_state (R : Run machine) {T k : ℕ} (h : k ≤ T + 1) :
    (extend R T).state k = R.state k := by
  induction k with
  | zero => rfl
  | succ k ih => rw [(extend R T).step k, R.step k, ih (by omega), extend_input R (by omega)]

theorem extend_responsive (R : Run machine) (T : ℕ) :
    Axi4.Responsive (outAt (extend R T)) (slaveAt (extend R T)) := by
  refine Axi4.responsive_of_eager (T := T) fun k hk => ?_
  have hinput : (extend R T).input k = { R.input k with out := Axi4.eager } := if_neg (by omega)
  rw [slaveAt, hinput]

theorem served (hr : Axi4.Responsive (outAt R) (slaveAt R)) (h : acceptsAt R t q = true) :
    ∃ t', t < t' ∧ Served R t t' q (requestAt R t q) := by
  cases hw : (requestAt R t q).wen with
  | false => exact served_read hr h hw
  | true => exact served_write hr h hw

/-- Whatever the slave does, an unanswered request is pending: its run up to now is the
beginning of one in which it is served. -/
theorem pending_of_unanswered {T : ℕ} (h : acceptsAt R t q = true)
    (hno : ∀ q', NeverIn (fun k => (respAt R k q').valid) t T) :
    Pending R t T (requestAt R t q) := by
  rcases Nat.lt_or_ge T t with hTt | htT
  · -- there is no cycle in between
    refine ⟨fun _ k htk hkT => ?_, ⟨0, fun k htk hkT => ?_⟩, ⟨0, fun k htk hkT => ?_⟩,
      ⟨0, fun k htk hkT => ?_⟩, fun k htk hkT => ?_⟩ <;> omega
  · have hinput : ∀ {k}, k ≤ T → (extend R T).input k = R.input k := fun hk => extend_input R hk
    have hstate : ∀ {k}, k ≤ T → (extend R T).state k = R.state k :=
      fun hk => extend_state R (by omega)
    have hacc : acceptsAt (extend R T) t q = true := by
      rw [acceptsAt, hinput htT, hstate htT]
      exact h
    obtain ⟨t', htt', hserved⟩ := served (extend_responsive R T) hacc
    have hT : T < t' := by
      by_contra hle
      have hle' : t' ≤ T := by omega
      have hv := (hserved.resp.2.2 t' htt' le_rfl).mpr rfl
      simp only [respAt, hinput hle', hstate hle'] at hv
      exact absurd ((hno q t' htt' hle').symm.trans hv) (by decide)
    have hpend := hserved.pending hT
    have hreq : requestAt (extend R T) t q = requestAt R t q := by
      rw [requestAt, hinput htT]
      rfl
    rw [hreq] at hpend
    have hfires : ∀ {k}, k ≤ T → firesAt (extend R T) k = firesAt R k := by
      intro k hk
      rw [firesAt, hinput hk, hstate hk]
      rfl
    have hout : ∀ {k}, k ≤ T → outAt (extend R T) k = outAt R k := by
      intro k hk
      rw [outAt, hstate hk]
      rfl
    refine ⟨?_, ?_, ?_, ?_, ?_⟩
    · intro q' k htk hkT
      have hk := hpend.alone q' k htk hkT
      simpa only [acceptsAt, hinput hkT, hstate hkT] using hk
    · obtain ⟨a, ha⟩ := hpend.ar
      refine ⟨a, fun k htk hkT hf => ?_⟩
      simpa only [hout hkT] using ha k htk hkT (by rwa [hfires hkT])
    · obtain ⟨a, ha⟩ := hpend.aw
      refine ⟨a, fun k htk hkT hf => ?_⟩
      simpa only [hout hkT] using ha k htk hkT (by rwa [hfires hkT])
    · obtain ⟨a, ha⟩ := hpend.w
      refine ⟨a, fun k htk hkT hf => ?_⟩
      simpa only [hout hkT] using ha k htk hkT (by rwa [hfires hkT])
    · intro k htk hkT
      have hk := hpend.unanswered k htk hkT
      simpa only [hfires hkT] using hk

end Run

/-! ## The contract -/

/-- For all request streams and all slaves: one request is taken at a time; it is carried out
as one single-beat transaction with its own address, size, data and strobes and answered
once, with the data of that transaction and to its requester only, as soon as the slave has
responded; until then no beat is sent twice; and nothing else happens on the wires. -/
theorem requests_become_transactions (R : Run machine) :
    (∀ t q, acceptsAt R t q = true →
      (∀ q', acceptsAt R t q' = true → q' = q) ∧
      (Axi4.Responsive (outAt R) (slaveAt R) →
        ∃ t', t < t' ∧ Served R t t' q (requestAt R t q)) ∧
      ∀ T, (∀ q', NeverIn (fun k => (respAt R k q').valid) t T) →
        Pending R t T (requestAt R t q)) ∧
    ∀ k, (firesAt R k ≠ ⟨false, false, false, false, false⟩ ∨
        ∃ q, (respAt R k q).valid = true) →
      ∃ t q, t < k ∧ acceptsAt R t q = true ∧
        ∀ j, t < j → j < k → ∀ q', (respAt R j q').valid = false := by
  refine ⟨fun t q h => ⟨fun q' h' => accepts_unique h h', fun hr => served hr h,
    fun T hno => pending_of_unanswered h hno⟩, ?_⟩
  intro k h
  exact accepted_of_busy (busy_of_event h)

/-- Both sides ask in every cycle: the data side to store a word, the fetch side to load one. -/
def contention : In where
  ifu := ⟨true, ⟨0x80000000#32, 2, false, 0, 0⟩⟩
  lsu := ⟨true, ⟨0x80100004#32, 2, true, 0xabcd#32, 0b1111⟩⟩
  out := Axi4.eager

def contentionRun : Run machine :=
  machine.runFrom (fun _ => contention) ⟨.idle, false, 0, 0, 0, 0, false, false, false⟩
    ⟨rfl, rfl, rfl, rfl⟩

theorem requests_become_transactions_contention :
    acceptsAt contentionRun 0 .lsu = true ∧
      ∃ t', 0 < t' ∧ Served contentionRun 0 t' .lsu ⟨0x80100004#32, 2, true, 0xabcd#32, 0b1111⟩ := by
  have hacc : acceptsAt contentionRun 0 .lsu = true := by decide
  have hr : Axi4.Responsive (outAt contentionRun) (slaveAt contentionRun) :=
    Axi4.responsive_of_eager (T := 0) fun _ _ => rfl
  exact ⟨hacc, (((requests_become_transactions contentionRun).1 0 .lsu hacc).2.1 hr)⟩

end DualSimpleBusToAXI4
end Soc
end Jyd
