import Jyd.Soc.DataBus
import Jyd.Soc.PowerUp

/-!
# PeripheralBridge — routing by a few address bits

`AddrSpace.inRng` replaces the comparison with a range by key bits.  Inside the
declared ranges this finds the right device.  Outside them every address still
reaches some device: the instruction region is decoded as the LED, and everything
that no device matches as the data RAM.
-/

namespace Jyd
namespace Soc
namespace DataBus

open Hdl Jyd.Core JYDPeripheralBridge

/-! ## The bus under a stream of requests -/

structure In where
  req : BusReq
  /-- The character that the host delivers if it is asked in this cycle. -/
  uartCh : Word
  deriving DecidableEq, Repr

def machine (sizeInByte : ℕ) : Machine In Regs where
  init := Reset
  next := fun i b => next sizeInByte b i.req i.uartCh

/-! ## Declared ranges -/

/-- `AddrSpace`: the first address of a range, and the first one behind it. -/
def range : Target → ℕ × ℕ
  | .dram => (0x80100000, 0x80110000)
  | .led => (0x80200040, 0x80200044)
  | .seg => (0x80200020, 0x80200024)
  | .cnt => (0x80200050, 0x80200054)
  | .uart => (0x802000a0, 0x802000af)

def Declared (t : Target) (a : Word) : Prop := (range t).1 ≤ a.toNat ∧ a.toNat < (range t).2

instance (t : Target) (a : Word) : Decidable (Declared t a) :=
  inferInstanceAs (Decidable (_ ∧ _))

/-- The key bits that the bridge looks at. -/
theorem targetSel_eq (a : Word) :
    targetSel a =
      if a.getLsbD 21 then
        (if a.toNat / 16 % 16 = 4 then .led
         else if a.toNat / 16 % 16 = 2 then .seg
         else if a.toNat / 16 % 16 = 5 then .cnt
         else if a.toNat / 16 % 16 = 10 then .uart
         else .dram)
      else if a.getLsbD 20 then .dram
      else .led := by
  have hnibble : ∀ n < 16, (a.extractLsb' 4 4 == BitVec.ofNat 4 n) = decide (a.toNat / 16 % 16 = n) := by
    intro n hn
    rw [Bool.eq_iff_iff, beq_iff_eq, decide_eq_true_eq, ← BitVec.toNat_inj]
    simp only [BitVec.extractLsb'_toNat, Nat.shiftRight_eq_div_pow, BitVec.toNat_ofNat]
    omega
  have h4 := hnibble 4 (by decide)
  have h2 := hnibble 2 (by decide)
  have h5 := hnibble 5 (by decide)
  have ha := hnibble 10 (by decide)
  have hrng : ∀ (s : Word) (n : ℕ), s.extractLsb' 4 4 = BitVec.ofNat 4 n → s.getLsbD 20 = false →
      inRng a s = ((a.getLsbD 21 && a.extractLsb' 4 4 == BitVec.ofNat 4 n) ||
        (!a.getLsbD 21 && !a.getLsbD 20)) := by
    intro s n hs h20
    rw [inRng, hs, h20]
    cases a.getLsbD 20 <;> rfl
  rw [targetSel, hrng LED 4 rfl rfl, hrng SEG 2 rfl rfl, hrng CNT 5 rfl rfl, hrng UART 10 rfl rfl,
    h4, h2, h5, ha]
  cases a.getLsbD 21 <;> cases a.getLsbD 20 <;> simp

/-- Inside a declared range the key bits find the device of the range. -/
theorem targetSel_of_declared {t : Target} {a : Word} (h : Declared t a) : targetSel a = t := by
  rcases h with ⟨hlow, hhigh⟩
  rw [targetSel_eq, getLsbD_eq_decide, getLsbD_eq_decide]
  cases t <;> simp only [range] at hlow hhigh
  · rw [if_neg (by simp; omega), if_pos (by simp; omega)]
  · rw [if_pos (by simp; omega), if_pos (by omega)]
  · rw [if_pos (by simp; omega), if_neg (by omega), if_pos (by omega)]
  · rw [if_pos (by simp; omega), if_neg (by omega), if_neg (by omega), if_pos (by omega)]
  · rw [if_pos (by simp; omega), if_neg (by omega), if_neg (by omega), if_neg (by omega),
      if_pos (by omega)]

/-! ## Routing and answers -/

/-- The word of a device at the time of a read. -/
def deviceWord (sizeInByte : ℕ) (b : Regs) (addr ch : Word) : Target → Word
  | .dram => SimpleBusMem.read sizeInByte b.dram.mem addr
  | .led => b.led.dataReg
  | .seg => b.seg.dataReg
  | .cnt => b.cnt.timerMs
  | .uart => if SimpleBusUART.isStatus addr then 1 else ch

theorem answer_eq (sizeInByte : ℕ) (b : Regs) (addr ch : Word) :
    answer sizeInByte b addr ch = deviceWord sizeInByte b addr ch (targetSel addr) := by
  rw [answer]
  cases targetSel addr <;> rfl

section Run

variable {sizeInByte : ℕ} (R : Run (machine sizeInByte))

def requestAt (t : ℕ) : BusReq := (R.input t).req
def respAt (t : ℕ) : Valid Word := resp (R.state t)

theorem inStep (t : ℕ) : InStep (R.state t) :=
  R.invariant InStep (fun _ => inStep_of_reset) (fun _ _ h => h.next) t

theorem respAt_early {k : ℕ} (hk : k < 2) : (respAt R k).valid = false := by
  rw [respAt, (inStep R k).resp_valid]
  rcases (by omega : k = 0 ∨ k = 1) with rfl | rfl
  · exact R.init.respValidPipe1
  · rw [R.step 0]
    exact R.init.respValidPipe0

/-- The responses are the requests of two cycles before, in the same order. -/
theorem respAt_valid (t : ℕ) : (respAt R (t + 2)).valid = (requestAt R t).valid := by
  rw [respAt, (inStep R (t + 2)).resp_valid, R.step (t + 1), R.step t]
  rfl

/-- The selector that comes out of the pipeline is the one of the answered request. -/
theorem respSel_at (t : ℕ) :
    (R.state (t + 2)).perip.respSelPipe1 = targetSel (requestAt R t).req.addr := by
  rw [R.step (t + 1), R.step t]
  rfl

theorem respAt_bits {t : ℕ} (hv : (requestAt R t).valid = true)
    (hread : (requestAt R t).req.wen = false) :
    (respAt R (t + 2)).bits =
      answer sizeInByte (R.state t) (requestAt R t).req.addr (R.input t).uartCh := by
  rw [respAt, R.step (t + 1)]
  refine resp_next_bits.trans ?_
  rw [R.step t]
  exact due_next hv hread

end Run

/-- For every stream of requests: a response comes exactly two cycles after each request and
at no other time; a request inside a declared range is seen by the device of that range and
by no other; its response is the response of that device, and for a read the word of the
device at the time of the request. -/
theorem declared_requests_answered (sizeInByte : ℕ) (R : Run (machine sizeInByte)) :
    (∀ k < 2, (respAt R k).valid = false) ∧
      ∀ t, (respAt R (t + 2)).valid = (requestAt R t).valid ∧
        ∀ dev, (requestAt R t).valid = true → Declared dev (requestAt R t).req.addr →
          (∀ d, select (requestAt R t) d = ⟨decide (d = dev), (requestAt R t).req⟩) ∧
          respAt R (t + 2) = ⟨true, (respOf (R.state (t + 2)) dev).bits⟩ ∧
          (respOf (R.state (t + 2)) dev).valid = true ∧
          ((requestAt R t).req.wen = false →
            (respAt R (t + 2)).bits =
              deviceWord sizeInByte (R.state t) (requestAt R t).req.addr (R.input t).uartCh
                dev) := by
  refine ⟨fun k hk => respAt_early R hk, fun t => ⟨respAt_valid R t, ?_⟩⟩
  intro dev hv hdecl
  have htarget := targetSel_of_declared hdecl
  have hresp := (respAt_valid R t).trans hv
  -- the selector travels beside the request and picks the same device two cycles later
  have hsel := (respSel_at R t).trans htarget
  refine ⟨?_, ?_, ?_, ?_⟩
  · intro d
    rw [select, hv, htarget, Bool.true_and]
    cases d <;> cases dev <;> rfl
  · have hbits : (respAt R (t + 2)).bits = (respOf (R.state (t + 2)) dev).bits := by
      rw [respAt, resp, hsel]
    rw [← hbits, ← hresp]
  · have hvalid : ((R.state (t + 2)).perip.respValidPipe1 &&
        (respOf (R.state (t + 2)) (R.state (t + 2)).perip.respSelPipe1).valid) = true := hresp
    rw [hsel, Bool.and_eq_true] at hvalid
    exact hvalid.2
  · intro hread
    rw [respAt_bits R hv hread, answer_eq, htarget]

/-- Back to back: set the LED, read it, and read the first word of the RAM. -/
def ledThenRam : List BusReq :=
  [⟨true, ⟨0x80200040#32, 2, true, 0xa5#32, 0b1111⟩⟩, ⟨true, ⟨0x80200040#32, 2, false, 0, 0⟩⟩,
    ⟨true, ⟨0x80100000#32, 2, false, 0, 0⟩⟩]

def ledThenRamRun : Run (machine 65536) :=
  (machine 65536).runFrom (fun t => ⟨ledThenRam.getD t ⟨false, ⟨0, 0, false, 0, 0⟩⟩, 0⟩)
    PowerUp.bus PowerUp.busReset

theorem declared_requests_answered_ledThenRam :
    Declared .led (requestAt ledThenRamRun 1).req.addr ∧
      Declared .dram (requestAt ledThenRamRun 2).req.addr ∧
      (respAt ledThenRamRun 3).bits = 0xa5#32 ∧
      (respAt ledThenRamRun 4).bits =
        deviceWord 65536 (ledThenRamRun.state 2) 0x80100000#32 0 .dram := by
  have hled : Declared .led (requestAt ledThenRamRun 1).req.addr := by decide
  have hram : Declared .dram (requestAt ledThenRamRun 2).req.addr := by decide
  have hanswer := (declared_requests_answered 65536 ledThenRamRun).2
  refine ⟨hled, hram, ?_, ?_⟩
  · exact ((hanswer 1).2 .led rfl hled).2.2.2 rfl
  · exact ((hanswer 2).2 .dram rfl hram).2.2.2 rfl

/-! ## Writes outside the declared ranges -/

/-- The addresses that the core can emit: `0x80` on top and 22 free bits. -/
def CoreAddress (a : Word) : Prop := a.extractLsb' 22 10 = 0x80#8 ++ 0#2

instance (a : Word) : Decidable (CoreAddress a) := inferInstanceAs (Decidable (_ = _))

def Unassigned (a : Word) : Prop := ∀ t, ¬ Declared t a

/-- What the devices hold, without their response pipelines. -/
structure Contents where
  ram : ℕ → Word
  led : Word
  seg : Word
  cntStart : Bool
  cntCycle : BitVec 16
  cntMs : Word
  cntEnable : Bool
  chData : Word

def contents (b : Regs) : Contents where
  ram := b.dram.mem
  led := b.led.dataReg
  seg := b.seg.dataReg
  cntStart := b.cnt.start
  cntCycle := b.cnt.cycleCounter
  cntMs := b.cnt.timerMs
  cntEnable := b.perip.cntEnableReg
  chData := b.uart.chData

def noRequest : BusReq := ⟨false, ⟨0, 0, false, 0, 0⟩⟩

theorem targetSel_uart_iff (a : Word) :
    targetSel a = .uart ↔ a.getLsbD 21 = true ∧ a.extractLsb' 4 4 = 0xa#4 := by
  have hnibble : a.extractLsb' 4 4 = 0xa#4 ↔ a.toNat / 16 % 16 = 10 := by
    rw [← BitVec.toNat_inj]
    simp only [BitVec.extractLsb'_toNat, Nat.shiftRight_eq_div_pow, BitVec.toNat_ofNat]
  rw [targetSel_eq, hnibble]
  cases a.getLsbD 21 with
  | false => cases a.getLsbD 20 <;> simp
  | true =>
    simp only [if_true, true_and]
    grind

/-- A write that is decoded as the UART only sends a character. -/
theorem contents_of_uart {sizeInByte : ℕ} {b : Regs} {q : BusReq} {ch : Word}
    (hw : q.req.wen = true) (h : targetSel q.req.addr = .uart) :
    contents (next sizeInByte b q ch) = contents (next sizeInByte b noRequest ch) := by
  simp [contents, next, select, h, hw, noRequest, JYDPeripheralBridge.next, SimpleBusMem.next,
    SimpleBusOneWordRWDevice.next, SimpleBusTimer.next, SimpleBusUART.next]

/-- The write of `data` to `a` in the first cycle. -/
def writeOnce (a data : Word) : Run (machine 65536) :=
  (machine 65536).runFrom
    (fun t => if t = 0 then ⟨⟨true, ⟨a, 2, true, data, 0b1111⟩⟩, 0⟩ else ⟨noRequest, 0⟩)
    PowerUp.bus PowerUp.busReset

/-- Every other device keeps something of some write, straight after reset. -/
theorem writeOnce_changes {a : Word} (h : targetSel a ≠ .uart) :
    ∃ data, contents ((writeOnce a data).state 1) ≠
      contents (next 65536 PowerUp.bus noRequest 0) := by
  have hstep : ∀ data, (writeOnce a data).state 1 =
      next 65536 PowerUp.bus ⟨true, ⟨a, 2, true, data, 0b1111⟩⟩ 0 := fun _ => rfl
  cases ht : targetSel a with
  | uart => exact absurd ht h
  | led =>
    refine ⟨1, fun he => ?_⟩
    have hled := congrArg Contents.led he
    rw [hstep] at hled
    simp [contents, next, select, ht, SimpleBusOneWordRWDevice.next, noRequest, PowerUp.bus] at hled
  | seg =>
    refine ⟨1, fun he => ?_⟩
    have hseg := congrArg Contents.seg he
    rw [hstep] at hseg
    simp [contents, next, select, ht, SimpleBusOneWordRWDevice.next, noRequest, PowerUp.bus] at hseg
  | cnt =>
    refine ⟨SimpleBusTimer.MAGIC_START, fun he => ?_⟩
    have hcnt := congrArg Contents.cntStart he
    rw [hstep] at hcnt
    simp [contents, next, select, ht, SimpleBusTimer.next, noRequest, PowerUp.bus] at hcnt
  | dram =>
    refine ⟨1, fun he => ?_⟩
    have hram := congrFun (congrArg Contents.ram he) (SimpleBusMem.wordIndex 65536 a)
    rw [hstep] at hram
    have hword : writeMasked 0b1111#4 1#32 0#32 ≠ 0#32 := by decide
    simp [contents, next, select, ht, SimpleBusMem.next, SimpleBusMem.write_eq,
      SimpleBusMem.inRange_64KB, noRequest, PowerUp.bus, hword] at hram

/-- For every stream of requests: a write to `a` leaves all device contents as they would be
without it, in the simulation and in the FPGA memory, exactly when the key bits of `a` are
those of the UART; and it is then, and only then, that it sends a byte. -/
theorem write_keeps_contents_iff (a : Word) :
    ((∀ (R : Run (machine 65536)) (t : ℕ), (requestAt R t).valid = true →
      (requestAt R t).req.wen = true → (requestAt R t).req.addr = a →
      contents (R.state (t + 1)) = contents (next 65536 (R.state t) noRequest (R.input t).uartCh) ∧
        ∀ mem, SimpleBusFPGAMem.nextMem 65536 mem (select (requestAt R t) .dram) = mem) ↔
      a.getLsbD 21 = true ∧ a.extractLsb' 4 4 = 0xa#4) ∧
    ∀ q : BusReq, q.valid = true → q.req.wen = true → q.req.addr = a →
      SimpleBusUART.toStdOut (select q .uart) =
        if a.getLsbD 21 = true ∧ a.extractLsb' 4 4 = 0xa#4 then some (q.req.wdata.extractLsb' 0 8)
        else none := by
  simp only [← targetSel_uart_iff]
  refine ⟨⟨?_, ?_⟩, ?_⟩
  · intro h
    by_contra hne
    obtain ⟨data, hdata⟩ := writeOnce_changes hne
    exact hdata (h (writeOnce a data) 0 rfl rfl rfl).1
  · intro ht R t _ hw haddr
    rw [← haddr] at ht
    refine ⟨?_, ?_⟩
    · rw [R.step t]
      exact contents_of_uart hw ht
    · intro mem
      refine SimpleBusFPGAMem.nextMem_of_invalid mem ?_
      rw [select, ht]
      simp
  · rintro q hv hw rfl
    simp [SimpleBusUART.toStdOut, select, hv, hw]

/-- Stores to the instruction region set the LED, and stores to an unassigned peripheral
address change the data RAM. -/
theorem unassigned_writes_change_contents :
    (CoreAddress 0x80000000#32 ∧ Unassigned 0x80000000#32 ∧
      (contents ((writeOnce 0x80000000#32 1).state 0)).led = 0#32 ∧
      (contents ((writeOnce 0x80000000#32 1).state 1)).led = 1#32) ∧
    (CoreAddress 0x80200000#32 ∧ Unassigned 0x80200000#32 ∧
      (contents ((writeOnce 0x80200000#32 1).state 0)).ram 0 = 0#32 ∧
      (contents ((writeOnce 0x80200000#32 1).state 1)).ram 0 = 1#32) := by
  refine ⟨⟨by decide, ?_, by decide +kernel, by decide +kernel⟩,
    ⟨by decide, ?_, by decide +kernel, by decide +kernel⟩⟩ <;>
    intro t <;> cases t <;> decide

end DataBus
end Soc
end Jyd
