import Jyd.Hdl.Machine

/-!
# FunctionalUnit — circuits that serve one request at a time

A unit takes requests through one ready/valid port and hands out answers through
another.  `Serial` lists what a clock edge has to preserve; from it follow, for every
run, that the answers belong to the requests in their order (`Serial.served`) and in
which cycles an answer is offered (`Serial.offered`).
-/

namespace Jyd
namespace Hdl

variable {In State Req Ans : Type}

/-- The wires of the two ports. -/
structure UnitPorts (In State Req Ans : Type) where
  inValid : In → Bool
  inBits : In → Req
  inReady : State → Bool
  outValid : State → Bool
  outBits : State → Ans
  outReady : In → Bool

namespace UnitPorts

variable (p : UnitPorts In State Req Ans)

/-- The request taken in a cycle. -/
def accepted (i : In) (s : State) : Option Req :=
  if p.inValid i && p.inReady s then some (p.inBits i) else none

/-- The answer handed out in a cycle. -/
def delivered (i : In) (s : State) : Option Ans :=
  if p.outValid s && p.outReady i then some (p.outBits s) else none

/-- The ports of a unit inside a larger circuit. -/
def comap {In' State' : Type} (g : In' → In) (f : State' → State) :
    UnitPorts In' State' Req Ans where
  inValid := fun i => p.inValid (g i)
  inBits := fun i => p.inBits (g i)
  inReady := fun s => p.inReady (f s)
  outValid := fun s => p.outValid (f s)
  outBits := fun s => p.outBits (f s)
  outReady := fun i => p.outReady (g i)

variable {p} {i : In} {s : State}

theorem accepted_eq_some {q : Req} :
    p.accepted i s = some q ↔ (p.inValid i = true ∧ p.inReady s = true) ∧ p.inBits i = q := by
  simp [accepted]

theorem accepted_eq_none (h : p.inReady s = false) : p.accepted i s = none := by
  simp [accepted, h]

theorem delivered_eq_none (h : p.outValid s = false) : p.delivered i s = none := by
  simp [delivered, h]

end UnitPorts

/-- The unit is ready when it is idle.  `Working q k` holds of the states in which it
serves `q` and still needs `k` cycles before it offers the answer. -/
structure Serial (m : Machine In State) (p : UnitPorts In State Req Ans) (latency : Req → ℕ)
    (Answers : Req → Ans → Prop) (Working : Req → ℕ → State → Prop) : Prop where
  init : ∀ {s}, m.init s → p.inReady s = true
  quiet : ∀ {s}, p.inReady s = true → p.outValid s = false
  rest : ∀ {i s}, p.inReady s = true → p.inValid i = false → p.inReady (m.next i s) = true
  start : ∀ {i s}, p.inReady s = true → p.inValid i = true →
    Working (p.inBits i) (latency (p.inBits i)) (m.next i s)
  busy : ∀ {q k s}, Working q k s → p.inReady s = false
  offers : ∀ {q k s}, Working q k s → (p.outValid s = true ↔ k = 0)
  answers : ∀ {q s}, Working q 0 s → Answers q (p.outBits s)
  advance : ∀ {q k i s}, Working q (k + 1) s → Working q k (m.next i s)
  wait : ∀ {q i s}, Working q 0 s → p.outReady i = false → Working q 0 (m.next i s)
  release : ∀ {q i s}, Working q 0 s → p.outReady i = true → p.inReady (m.next i s) = true

namespace Serial

variable {m : Machine In State} {p : UnitPorts In State Req Ans} {latency : Req → ℕ}
  {Answers : Req → Ans → Prop} {Working : Req → ℕ → State → Prop}

/-- A unit keeps its contract inside a circuit that clocks it. -/
theorem comap {In' State' : Type} {m' : Machine In' State'} (g : In' → In) (f : State' → State)
    (S : Serial m p latency Answers Working) (hinit : ∀ s, m'.init s → m.init (f s))
    (hnext : ∀ i s, f (m'.next i s) = m.next (g i) (f s)) :
    Serial m' (p.comap g f) latency Answers (fun q k s => Working q k (f s)) where
  init := fun h => S.init (hinit _ h)
  quiet := S.quiet
  rest := by
    intro i s hready hvalid
    show p.inReady (f (m'.next i s)) = true
    rw [hnext]
    exact S.rest hready hvalid
  start := by
    intro i s hready hvalid
    rw [hnext]
    exact S.start hready hvalid
  busy := S.busy
  offers := S.offers
  answers := S.answers
  advance := by
    intro q k i s h
    rw [hnext]
    exact S.advance h
  wait := by
    intro q i s h hwait
    rw [hnext]
    exact S.wait h hwait
  release := by
    intro q i s h hready
    show p.inReady (f (m'.next i s)) = true
    rw [hnext]
    exact S.release h hready

/-! ## The answers belong to the requests -/

/-- What a state and the histories of the two ports have to do with each other. -/
inductive Phase (p : UnitPorts In State Req Ans) (Answers : Req → Ans → Prop)
    (Working : Req → ℕ → State → Prop) (s : State) : List Req → List Ans → Prop
  | idle {reqs anss} (hready : p.inReady s = true) (hserved : List.Forall₂ Answers reqs anss) :
      Phase p Answers Working s reqs anss
  | working {q k reqs anss} (hworking : Working q k s)
      (hserved : List.Forall₂ Answers reqs anss) :
      Phase p Answers Working s (reqs ++ [q]) anss

theorem Phase.next (S : Serial m p latency Answers Working) {i : In} {s : State}
    {reqs : List Req} {anss : List Ans} (h : Phase p Answers Working s reqs anss) :
    Phase p Answers Working (m.next i s) (reqs ++ (p.accepted i s).toList)
      (anss ++ (p.delivered i s).toList) := by
  cases h with
  | idle hready hserved =>
    rw [UnitPorts.delivered_eq_none (S.quiet hready)]
    cases hvalid : p.inValid i with
    | false =>
      have hnone : p.accepted i s = none := by simp [UnitPorts.accepted, hvalid]
      simpa [hnone] using Phase.idle (S.rest hready hvalid) hserved
    | true =>
      have hsome : p.accepted i s = some (p.inBits i) := by
        simp [UnitPorts.accepted, hvalid, hready]
      simpa [hsome] using Phase.working (S.start hready hvalid) hserved
  | @working q k reqs anss hworking hserved =>
    rw [UnitPorts.accepted_eq_none (S.busy hworking)]
    cases k with
    | succ k =>
      -- no answer is offered yet
      have hvalid : p.outValid s = false := by
        simpa using (S.offers hworking).not.mpr (Nat.succ_ne_zero k)
      rw [UnitPorts.delivered_eq_none hvalid]
      simpa using Phase.working (S.advance hworking) hserved
    -- the answer is on the port; whether it leaves depends on the consumer
    | zero =>
      have hvalid : p.outValid s = true := (S.offers hworking).mpr rfl
      cases hout : p.outReady i with
      | false =>
        have hnone : p.delivered i s = none := by simp [UnitPorts.delivered, hout]
        simpa [hnone] using Phase.working (S.wait hworking hout) hserved
      | true =>
        have hsome : p.delivered i s = some (p.outBits s) := by
          simp [UnitPorts.delivered, hvalid, hout]
        have hboth : List.Forall₂ Answers (reqs ++ [q]) (anss ++ [p.outBits s]) :=
          List.rel_append hserved (.cons (S.answers hworking) .nil)
        have hidle : Phase p Answers Working (m.next i s) (reqs ++ [q])
            (anss ++ [p.outBits s]) := .idle (S.release hworking hout) hboth
        simpa [hsome] using hidle

theorem phase (S : Serial m p latency Answers Working) (R : Run m) (n : ℕ) :
    Phase p Answers Working (R.state n) (R.events p.accepted n) (R.events p.delivered n) := by
  induction n with
  | zero => exact .idle (S.init R.init) .nil
  | succ n ih =>
    rw [R.step n]
    exact Phase.next S ih

/-- In every run the answers so far are those of the requests so far, in their order,
but for at most one request that is still being served. -/
theorem served (S : Serial m p latency Answers Working) (R : Run m) (n : ℕ) :
    ∃ done pending, R.events p.accepted n = done ++ pending ∧ pending.length ≤ 1 ∧
      List.Forall₂ Answers done (R.events p.delivered n) := by
  have hphase := S.phase R n
  generalize R.events p.accepted n = reqs at hphase ⊢
  cases hphase with
  | idle hready hserved => exact ⟨_, [], by simp, by simp, hserved⟩
  | @working q k reqs _ hworking hserved => exact ⟨reqs, [q], rfl, by simp, hserved⟩

/-! ## The cycles in which an answer is offered -/

variable (S : Serial m p latency Answers Working) (R : Run m) {t : ℕ} {q : Req}
  (h : p.accepted (R.input t) (R.state t) = some q)

include S h

theorem working_after (k : ℕ) :
    k ≤ latency q → Working q (latency q - k) (R.state (t + 1 + k)) := by
  induction k with
  -- the request is in the unit one cycle after it was accepted
  | zero =>
    intro _
    rcases UnitPorts.accepted_eq_some.mp h with ⟨⟨hvalid, hready⟩, hq⟩
    have hstart := S.start hready hvalid
    rw [hq] at hstart
    simpa [R.step t] using hstart
  | succ k ih =>
    intro hk
    have hbefore := ih (by omega)
    have hleft : latency q - k = latency q - (k + 1) + 1 := by omega
    rw [hleft] at hbefore
    rw [show t + 1 + (k + 1) = t + 1 + k + 1 by omega, R.step (t + 1 + k)]
    exact S.advance hbefore

theorem working_while_waiting (d : ℕ) :
    (∀ v, t + 1 + latency q ≤ v → v < t + 1 + latency q + d → p.outReady (R.input v) = false) →
      Working q 0 (R.state (t + 1 + latency q + d)) := by
  induction d with
  | zero =>
    intro _
    simpa using working_after S R h (latency q) le_rfl
  | succ d ih =>
    intro hwait
    have hbefore := ih (fun v hv hlt => hwait v hv (by omega))
    rw [show t + 1 + latency q + (d + 1) = t + 1 + latency q + d + 1 by omega,
      R.step (t + 1 + latency q + d)]
    exact S.wait hbefore (hwait _ (by omega) (by omega))

/-- The answer is offered from a fixed cycle on, until it is taken. -/
theorem offered {u : ℕ} (hu : t < u)
    (hwait : ∀ v, t + 1 + latency q ≤ v → v < u → p.outReady (R.input v) = false) :
    (p.outValid (R.state u) = true ↔ t + 1 + latency q ≤ u) ∧
      (t + 1 + latency q ≤ u → Answers q (p.outBits (R.state u))) := by
  by_cases hlate : t + 1 + latency q ≤ u
  · obtain ⟨d, rfl⟩ := Nat.exists_eq_add_of_le hlate
    have hworking := working_while_waiting S R h d hwait
    have hvalid : p.outValid (R.state (t + 1 + latency q + d)) = true :=
      (S.offers hworking).mpr rfl
    exact ⟨iff_of_true hvalid hlate, fun _ => S.answers hworking⟩
  · obtain ⟨k, rfl⟩ := Nat.exists_eq_add_of_le hu
    have hworking := working_after S R h k (by omega)
    have hvalid : ¬ p.outValid (R.state (t + 1 + k)) = true :=
      (S.offers hworking).not.mpr (by omega)
    exact ⟨iff_of_false hvalid hlate, fun hle => absurd hle hlate⟩

end Serial

end Hdl
end Jyd
