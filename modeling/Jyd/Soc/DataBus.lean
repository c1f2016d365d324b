import Jyd.Soc.JydDevices

/-!
# DataBus — every request is answered two cycles later

The response pipelines of the devices run in step with the one of the bridge, so
the response of a cycle belongs to the request of two cycles before, whichever
device it went to.
-/

namespace Jyd
namespace Soc

open Hdl Jyd.Core JYDPeripheralBridge

/-! ## Word indices of the data RAM -/

namespace SimpleBusMem

/-- The base of the RAM is aligned to every size up to 1 MB. -/
theorem wordIndex_eq {sizeInByte : ℕ} (h : Nat.clog 2 sizeInByte ≤ 20) (a : Word) :
    wordIndex sizeInByte a = a.toNat % 2 ^ Nat.clog 2 sizeInByte / 4 := by
  rcases Nat.exists_eq_add_of_le h with ⟨m, hm⟩
  have hbase : (a - dramBaseAddr).toNat = (a.toNat + 2047 * 2 ^ 20) % 2 ^ 32 := by
    rw [BitVec.toNat_sub, dramBaseAddr]
    simp only [BitVec.toNat_ofNat]
    omega
  have hpow : (2 : ℕ) ^ 20 = 2 ^ Nat.clog 2 sizeInByte * 2 ^ m := by rw [← Nat.pow_add, ← hm]
  have hdvd : 2 ^ Nat.clog 2 sizeInByte ∣ 2 ^ 32 := Nat.pow_dvd_pow 2 (by omega)
  have hsplit : 2047 * 2 ^ 20 = 2 ^ Nat.clog 2 sizeInByte * (2 ^ m * 2047) := by
    rw [hpow, Nat.mul_comm 2047, Nat.mul_assoc]
  rw [wordIndex, localAddr, hbase, Nat.mod_mod_of_dvd _ hdvd, hsplit, Nat.add_mul_mod_self_left]

theorem clog_64KB : 2 ^ Nat.clog 2 65536 = 65536 := by
  have hclog : Nat.clog 2 65536 = 16 := Nat.clog_pow 2 16 (by decide)
  rw [hclog]
  decide

theorem wordIndex_64KB (a : Word) : wordIndex 65536 a = a.toNat % 65536 / 4 := by
  have hclog : Nat.clog 2 65536 = 16 := Nat.clog_pow 2 16 (by decide)
  rw [wordIndex_eq (by omega), clog_64KB]

/-- The default RAM has a word behind every index. -/
theorem inRange_64KB (a : Word) : wordIndex 65536 a < 16384 := by
  rw [wordIndex_64KB]
  omega

end SimpleBusMem

namespace DataBus

variable {sizeInByte : ℕ} {b : Regs} {q : BusReq} {ch : Word}

/-! ## Responses on the way -/

/-- Device `t` took a request in the previous cycle. -/
def valid0 (b : Regs) : Target → Bool
  | .dram => b.dram.pipe.validPipe0
  | .led => b.led.pipe.validPipe0
  | .seg => b.seg.pipe.validPipe0
  | .cnt => b.cnt.pipe.validPipe0
  | .uart => b.uart.validPipe0

/-- The word that device `t` answers in the next cycle. -/
def dueOf (b : Regs) : Target → Word
  | .dram => b.dram.pipe.respDataPipe0
  | .led => b.led.pipe.respDataPipe0
  | .seg => b.seg.pipe.respDataPipe0
  | .cnt => b.cnt.pipe.respDataPipe0
  | .uart =>
    if b.uart.readRespPipe0 then (if b.uart.statusReadPipe0 then 1 else b.uart.chData) else 0

def due (b : Regs) : Word := dueOf b b.perip.respSelPipe0

/-- What a read is answered with: the device's word at the time of the request. -/
def answer (sizeInByte : ℕ) (b : Regs) (addr ch : Word) : Word :=
  match targetSel addr with
  | .dram => SimpleBusMem.read sizeInByte b.dram.mem addr
  | .led => b.led.dataReg
  | .seg => b.seg.dataReg
  | .cnt => b.cnt.timerMs
  | .uart => if SimpleBusUART.isStatus addr then 1 else ch

/-- The response pipelines of the devices are in step with the one of the bridge. -/
structure InStep (b : Regs) : Prop where
  pipe0 : ∀ t, valid0 b t = (b.perip.respValidPipe0 && b.perip.respSelPipe0 == t)
  pipe1 : ∀ t, (respOf b t).valid = (b.perip.respValidPipe1 && b.perip.respSelPipe1 == t)

theorem inStep_of_reset (h : Reset b) : InStep b := by
  refine ⟨fun t => ?_, fun t => ?_⟩
  · cases t <;> simp [valid0, h.respValidPipe0, h.dram0, h.led0, h.seg0, h.cnt0, h.uart0]
  · cases t <;>
      simp [respOf, RespPipe.resp, SimpleBusUART.resp, h.respValidPipe1, h.dram1, h.led1, h.seg1,
        h.cnt1, h.uart1]

theorem valid0_next (t : Target) :
    valid0 (next sizeInByte b q ch) t = (q.valid && targetSel q.req.addr == t) := by
  cases t <;> rfl

theorem respOf_next_valid (t : Target) :
    (respOf (next sizeInByte b q ch) t).valid = valid0 b t := by
  cases t <;> rfl

theorem InStep.next (h : InStep b) : InStep (next sizeInByte b q ch) where
  pipe0 := valid0_next
  pipe1 := fun t => (respOf_next_valid t).trans (h.pipe0 t)

theorem InStep.resp_valid (h : InStep b) : (resp b).valid = b.perip.respValidPipe1 := by
  simp [resp, h.pipe1]

/-! ## Data of a response -/

theorem respOf_next_bits (t : Target) :
    (respOf (next sizeInByte b q ch) t).bits = dueOf b t := by
  cases t with
  | dram => rfl
  | led => rfl
  | seg => rfl
  | cnt => rfl
  | uart =>
    cases h : b.uart.readRespPipe0 <;>
      simp [respOf, SimpleBusUART.resp, DataBus.next, SimpleBusUART.next, dueOf, h]

theorem resp_next_bits : (resp (next sizeInByte b q ch)).bits = due b :=
  respOf_next_bits _

theorem due_next (hv : q.valid = true) (hread : q.req.wen = false) :
    due (next sizeInByte b q ch) = answer sizeInByte b q.req.addr ch := by
  have hsel : (next sizeInByte b q ch).perip.respSelPipe0 = targetSel q.req.addr := rfl
  rw [due, hsel, answer]
  cases ht : targetSel q.req.addr with
  | dram => simp [dueOf, next, SimpleBusMem.next, RespPipe.next, select, ht, hv, hread]
  | led => simp [dueOf, next, SimpleBusOneWordRWDevice.next, RespPipe.next, select, ht, hv]
  | seg => simp [dueOf, next, SimpleBusOneWordRWDevice.next, RespPipe.next, select, ht, hv]
  | cnt => simp [dueOf, next, SimpleBusTimer.next, RespPipe.next, select, ht, hv]
  | uart =>
    cases hs : SimpleBusUART.isStatus q.req.addr <;>
      simp [dueOf, next, SimpleBusUART.next, select, ht, hv, hread, hs]

/-! ## The data RAM -/

theorem mem_next :
    (next sizeInByte b q ch).dram.mem =
      if q.valid && targetSel q.req.addr == .dram && q.req.wen then
        SimpleBusMem.write sizeInByte b.dram.mem q.req
      else b.dram.mem := rfl

theorem mem_next_of_read (hread : (q.valid && q.req.wen) = false) :
    (next sizeInByte b q ch).dram.mem = b.dram.mem := by
  rw [mem_next]
  split
  · rename_i hw
    simp_all
  · rfl

theorem ramDue_next (hv : q.valid = true) (hread : q.req.wen = false)
    (ht : targetSel q.req.addr = .dram) :
    (next sizeInByte b q ch).dram.pipe.respDataPipe0 =
      SimpleBusMem.read sizeInByte b.dram.mem q.req.addr := by
  simp [next, SimpleBusMem.next, RespPipe.next, select, ht, hv, hread]

end DataBus
end Soc
end Jyd
