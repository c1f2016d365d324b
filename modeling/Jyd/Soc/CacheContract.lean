import Jyd.Soc.Coherence
import Jyd.Soc.PowerUp

/-!
# CacheContract — the cache over the 64 KB data RAM

With 64 KB the whole RAM window is a fit region.  The cache is then coherent along
every run whose RAM stores are addressed to that window; a store to an unassigned
peripheral address falls through to the RAM behind the cache's back.
-/

namespace Jyd
namespace Soc

open Hdl Jyd.Core JYDPeripheralBridge

namespace JYDSoC

theorem indexOf_toNat (a : Word) : (DCache.indexOf a).toNat = a.toNat / 4 % 1024 := by
  simp [DCache.indexOf, Nat.shiftRight_eq_div_pow]

theorem tagOf_toNat (a : Word) : (DCache.tagOf a).toNat = a.toNat / 2048 % 128 := by
  simp [DCache.tagOf, Nat.shiftRight_eq_div_pow]

/-- The SoC with its default RAM. -/
def jydSoC (rom : Rom) : Config := ⟨rom, 65536⟩

/-- In 64 KB the tags tell all words of the window apart. -/
def window64KB : RamRegion 65536 where
  region := fun a => EXU.inDramRegion a = true
  inDram := fun h => h
  inRange := by
    intro a _
    exact SimpleBusMem.inRange_64KB a
  same_cell := by
    intro a b _ _ hindex htag
    have hi := congrArg BitVec.toNat hindex
    have ht := congrArg BitVec.toNat htag
    simp only [indexOf_toNat, tagOf_toNat, SimpleBusMem.wordIndex_64KB] at hi ht ⊢
    omega
  same_index := by
    intro a b _ _ hcell
    apply BitVec.eq_of_toNat_eq
    simp only [indexOf_toNat, SimpleBusMem.wordIndex_64KB] at hcell ⊢
    omega

/-! ## Along a run -/

section Run

variable {c : Config} (d : RamRegion c.dramSizeInByte) (R : Run (machine c))

def DisciplinedBefore (t : ℕ) : Prop := ∀ k < t, Disciplined d (R.input k) (R.state k)

variable {d} {R}

theorem cacheInv {t : ℕ} (h : DisciplinedBefore d R t) : CacheInv d (R.state t) := by
  induction t with
  | zero => exact cacheInv_of_reset R.init
  | succ t ih =>
    rw [R.step t]
    exact (ih (fun k hk => h k (Nat.lt_succ_of_lt hk))).next (frontInv R t)
      (h t (Nat.lt_succ_self t))

variable (R) in
theorem banked (t : ℕ) : DCache.Banked (R.state t).core.dcache := by
  induction t with
  | zero =>
    intro k hv
    simp [DCache.lineValid, DCache.tagEntry, R.init.core.tagMem] at hv
  | succ t ih =>
    rw [R.step t]
    exact DCache.Banked.next (i := CPUCore.dcacheIn (R.state t).core (coreIn c _ (R.state t))) ih
      rfl rfl

/-- A hit in LSU forwards the word that memory returns in the next cycle. -/
theorem hit_forwards {t : ℕ} (h : DisciplinedBefore d R t)
    (hv : (R.state t).core.lsuPipe.valid = true)
    (hload : (R.state t).core.lsuPipe.bits.cacheableLoad = true)
    (hhit : (R.state t).core.lsuPipe.bits.dcacheHit = true) :
    (R.state t).core.lsuPipe.bits.lateLoadData = (respAt R (t + 1)).bits := by
  have hlsu := (cacheInv h).lsu hv hload
  have hbits : (respAt R (t + 1)).bits = DataBus.due (R.state t).bus := by
    rw [respAt, R.step t]
    exact DataBus.resp_next_bits
  rw [hbits, (hlsu.hit hhit).1, DataBus.due, hlsu.target]
  rfl

theorem hitDataAssert_holds {t : ℕ} (h : DisciplinedBefore d R t) :
    WBU.hitDataAssert (R.state t).core.wbuPipe (respAt R t) = true := by
  cases hk : ((R.state t).core.wbuPipe.valid && (R.state t).core.wbuPipe.bits.cacheableLoad &&
      (R.state t).core.wbuPipe.bits.dcacheHit) with
  | false => simp [WBU.hitDataAssert, hk]
  | true =>
    simp only [Bool.and_eq_true] at hk
    have hwbu := (cacheInv h).wbu hk.1.1 hk.1.2
    have hbits : (respAt R t).bits = (R.state t).bus.dram.pipe.respDataReg :=
      resp_bits_of_dram hwbu.target
    simp [WBU.hitDataAssert, hbits, hwbu.hit hk.2]

/-- WBU writes a refill into the cache in this cycle. -/
def refills (c : Config) (i : In) (s : Regs) : Bool :=
  CPUCore.wbuDcacheUpdate s.core && !CPUCore.dcacheStoreMutation s.core (coreIn c i s)

/-- No store reaches the RAM between the request of a refilled load and its refill. -/
theorem refill_is_current {t : ℕ} (h : DisciplinedBefore d R t)
    (hrefill : refills c (R.input t) (R.state t) = true) :
    ∃ u, t = u + 2 ∧ CompletedAt R u t ∧
      (∀ k, u ≤ k → k < t → writesRam c (R.input k) (R.state k) = false) ∧
      (respAt R t).bits = ramWord c (R.state t) (R.state t).core.wbuPipe.bits.memAddr := by
  simp only [refills, CPUCore.wbuDcacheUpdate, WBU.dcacheUpdate, Bool.and_eq_true,
    beq_iff_eq] at hrefill
  rcases hrefill with ⟨⟨⟨⟨hv, hload⟩, _⟩, hepoch⟩, _⟩
  have hwbu := (cacheInv h).wbu hv hload
  -- a valid stage behind reset was filled by an edge
  obtain ⟨u, rfl, hlsuv, hlsuload⟩ : ∃ u, t = u + 2 ∧
      (R.state (u + 1)).core.lsuPipe.valid = true ∧
      (R.state (u + 1)).core.lsuPipe.bits.cacheableLoad = true := by
    cases t with
    | zero => simp [R.init.core.wbuPipe] at hv
    | succ t =>
      rw [wbuPipe_at] at hv hload
      cases t with
      | zero => simp [R.init.core.lsuPipe] at hv
      | succ u => exact ⟨u, rfl, hv, hload⟩
  have hisload : (R.state (u + 1)).core.lsuPipe.bits.isLoad = true := by
    rw [lsuPipe_at] at hlsuload ⊢
    simp only [EXU.outBits, EXU.cacheableLoad, Bool.and_eq_true] at hlsuload ⊢
    exact hlsuload.1.1.1
  have hmemop : memOpInWBU (R.state (u + 2)) = true := by
    rw [memOpInWBU, wbuPipe_at]
    simp [LSU.outBits, hlsuv, hisload]
  rcases completedAt_of_wbu R hmemop with ⟨u', hu, hreq, hcomp⟩
  obtain rfl : u = u' := by omega
  refine ⟨u, rfl, hcomp, ?_, ?_⟩
  · intro k hk hlt
    rcases (by omega : k = u ∨ k = u + 1) with rfl | rfl
    · have hread : (requestAt R k).req.wen = false := by
        have hwen := hcomp.isLoad
        rw [wbuPipe_at] at hwen
        simpa [LSU.outBits, hisload] using hwen
      have hread' : (busReq c (R.input k) (R.state k)).req.wen = false := hread
      simp [writesRam, hread']
    · refine not_writesRam_of_epoch (cacheInv (fun k hk => h k (Nat.lt_succ_of_lt hk)))
        (frontInv R (u + 1)) (h (u + 1) (Nat.lt_succ_self _)) hlsuv hlsuload ?_
      rw [wbuPipe_at] at hepoch
      rw [R.step (u + 1)] at hepoch
      exact hepoch.symm
  · have hbits : (respAt R (u + 2)).bits = (R.state (u + 2)).bus.dram.pipe.respDataReg :=
      resp_bits_of_dram hwbu.target
    rw [hbits, hwbu.fresh hepoch]

end Run

/-! ## The default SoC -/

/-- Stores that reach the RAM, and all list-reversal stores, are addressed to its window. -/
def StoresInWindow (c : Config) (i : In) (s : Regs) : Prop :=
  (busReq c i s).valid = true → (busReq c i s).req.wen = true →
    targetSel (busReq c i s).req.addr = .dram ∨ EXU.isListReverse s.core.exuPipe.bits = true →
    EXU.inDramRegion (busReq c i s).req.addr = true

instance (c : Config) (i : In) (s : Regs) : Decidable (StoresInWindow c i s) := by
  unfold StoresInWindow
  infer_instance

theorem disciplined_of_storesInWindow {rom : Rom} {s : Regs} {i : In} {expected : BitVec 15}
    (hf : FrontInv (jydSoC rom) s expected) (h : StoresInWindow (jydSoC rom) i s) :
    Disciplined (c := jydSoC rom) window64KB i s := by
  refine ⟨h, ?_⟩
  intro hv hload
  have hmemreq : EXU.needMemReq s.core.exuPipe.bits = true := by
    simp only [EXU.cacheableLoad, Bool.and_eq_true] at hload
    simp [EXU.needMemReq, hload.1.1.1]
  have hreq := request_of_needMemReq (i := i) hf (valid_of_request hf hv) hmemreq
  rw [hreq.1]
  simp only [EXU.cacheableLoad, Bool.and_eq_true] at hload
  exact hload.2

theorem disciplinedBefore_of_storesInWindow {rom : Rom} {R : Run (machine (jydSoC rom))} {t : ℕ}
    (h : ∀ k < t, StoresInWindow (jydSoC rom) (R.input k) (R.state k)) :
    DisciplinedBefore (c := jydSoC rom) window64KB R t :=
  fun k hk => disciplined_of_storesInWindow (frontInv R k) (h k hk)

/-- The lines of a copy of the cache, with the pending list-reversal write applied. -/
def settledLine (r : CPUCore.Regs) (data : BitVec 10 → Word) : BitVec 10 → CacheLine (BitVec 7) Word :=
  settled r (DCache.lines r.dcache data)

theorem settledLine_banked {r : CPUCore.Regs} (h : DCache.Banked r.dcache)
    {data : BitVec 10 → Word} {k : BitVec 10} (hv : (settledLine r data k).valid = true) :
    (settledLine r data k).tag.getLsbD 0 = k.getLsbD 9 := by
  rw [settledLine, settled] at hv ⊢
  split at hv
  · rename_i hp
    rw [if_pos hp]
    by_cases hk : k = DCache.indexOf r.exu.listReverse.listReverseCurrent
    · rw [hk, Function.update_self]
      exact DCache.bank_of_addr _
    · rw [Function.update_of_ne hk] at hv ⊢
      exact h k hv
  · rename_i hp
    rw [if_neg hp]
    exact h k hv

theorem inDram_lineAddr (k : BitVec 10) (tag : BitVec 7) :
    EXU.inDramRegion (DCache.lineAddr k tag) = true := by
  have hbits : (DCache.lineAddr k tag).extractLsb' 20 2 = 0b01#2 := by
    apply BitVec.eq_of_getLsbD_eq
    intro n hn
    simp only [DCache.lineAddr, BitVec.getLsbD_extractLsb', BitVec.getLsbD_append]
    rcases (by omega : n = 0 ∨ n = 1) with rfl | rfl <;> simp
  simp [EXU.inDramRegion, hbits]

theorem line_holds_ram {rom : Rom} {s : Regs} {data : BitVec 10 → Word}
    (hb : DCache.Banked s.core.dcache)
    (h : window64KB.geometry.Coherent (settledLine s.core data) s.bus.dram.mem) {k : BitVec 10}
    (hv : (settledLine s.core data k).valid = true) :
    (settledLine s.core data k).data =
      ramWord (jydSoC rom) s (DCache.lineAddr k (settledLine s.core data k).tag) := by
  have htag := DCache.tagOf_lineAddr (settledLine_banked hb hv)
  have hindex := DCache.indexOf_lineAddr k (settledLine s.core data k).tag
  have hdata := h (DCache.lineAddr k (settledLine s.core data k).tag) (inDram_lineAddr _ _)
  have hidx : window64KB.geometry.index = DCache.indexOf := rfl
  rw [hidx, hindex] at hdata
  exact hdata hv htag.symm

/-- In every state that is reached through stores addressed to the RAM window: each valid
line, in the block memory and in the shadow, holds the RAM word at the line's address; a
load that hit forwards the word that memory returns; and a refill written in this cycle
had no store to the RAM between its request and now. -/
theorem cache_coherent (rom : Rom) (R : Run (machine (jydSoC rom))) (t : ℕ)
    (h : ∀ k < t, StoresInWindow (jydSoC rom) (R.input k) (R.state k)) :
    (∀ data ∈ [DCache.blockData (R.state t).core.dcache, DCache.lateReadData (R.state t).core.dcache],
      ∀ k, (settledLine (R.state t).core data k).valid = true →
        DCache.indexOf (DCache.lineAddr k (settledLine (R.state t).core data k).tag) = k ∧
          DCache.tagOf (DCache.lineAddr k (settledLine (R.state t).core data k).tag) =
            (settledLine (R.state t).core data k).tag ∧
          (settledLine (R.state t).core data k).data =
            ramWord (jydSoC rom) (R.state t)
              (DCache.lineAddr k (settledLine (R.state t).core data k).tag)) ∧
      ((R.state t).core.lsuPipe.valid = true →
        (R.state t).core.lsuPipe.bits.cacheableLoad = true →
        (R.state t).core.lsuPipe.bits.dcacheHit = true →
        (R.state t).core.lsuPipe.bits.lateLoadData = (respAt R (t + 1)).bits) ∧
      WBU.hitDataAssert (R.state t).core.wbuPipe (respAt R t) = true ∧
      (refills (jydSoC rom) (R.input t) (R.state t) = true →
        ∃ u, t = u + 2 ∧ CompletedAt R u t ∧
          (∀ k, u ≤ k → k < t → writesRam (jydSoC rom) (R.input k) (R.state k) = false) ∧
          (respAt R t).bits =
            ramWord (jydSoC rom) (R.state t) (R.state t).core.wbuPipe.bits.memAddr) := by
  have hdisc := disciplinedBefore_of_storesInWindow h
  have hinv := cacheInv hdisc
  refine ⟨?_, hit_forwards hdisc, hitDataAssert_holds hdisc, refill_is_current hdisc⟩
  intro data hdata k hv
  have hb := banked R t
  refine ⟨DCache.indexOf_lineAddr _ _, DCache.tagOf_lineAddr (settledLine_banked hb hv), ?_⟩
  simp only [List.mem_cons, List.not_mem_nil, or_false] at hdata
  rcases hdata with rfl | rfl
  · exact line_holds_ram hb hinv.block hv
  · exact line_holds_ram hb hinv.late hv

/-- `lui x1, 0x80100; sw x1, 0(x1); lw x3, 0(x1)`. -/
def windowStore : List Word := [0x801000b7#32, 0x0010a023#32, 0x0000a183#32]

theorem cache_coherent_windowStore :
    (∀ k < 8, StoresInWindow (jydSoC (romOf windowStore))
        ((run (jydSoC (romOf windowStore))).input k) ((run (jydSoC (romOf windowStore))).state k)) ∧
      WBU.hitDataAssert ((run (jydSoC (romOf windowStore))).state 8).core.wbuPipe
        (respAt (run (jydSoC (romOf windowStore))) 8) = true :=
  have h : ∀ k < 8, StoresInWindow (jydSoC (romOf windowStore))
      ((run (jydSoC (romOf windowStore))).input k) ((run (jydSoC (romOf windowStore))).state k) := by
    decide +kernel
  ⟨h, (cache_coherent _ (run (jydSoC (romOf windowStore))) 8 h).2.2.1⟩

/-- `lui x1, 0x80100; lui x2, 0x80200; lw x3, 0(x1); sw x1, 0(x2); nop; lw x4, 0(x1);
addi x5, x4, 0`: the store is addressed to an unassigned peripheral and reaches RAM word 0. -/
def unassignedStore : List Word :=
  [0x801000b7#32, 0x80200137#32, 0x0000a183#32, 0x00112023#32, 0x00000013#32, 0x0000a203#32,
    0x00020293#32]

/-- The refill of the first load is written after the younger store, and the line stays
valid with the old word. -/
theorem stale_line_after_unassigned_store :
    let c := jydSoC (romOf unassignedStore)
    let R := run c
    writesRam c (R.input 6) (R.state 6) = true ∧ refills c (R.input 7) (R.state 7) = true ∧
      (settledLine (R.state 8).core (DCache.blockData (R.state 8).core.dcache) 0).valid = true ∧
      (settledLine (R.state 8).core (DCache.blockData (R.state 8).core.dcache) 0).data ≠
        ramWord c (R.state 8)
          (DCache.lineAddr 0
            (settledLine (R.state 8).core (DCache.blockData (R.state 8).core.dcache) 0).tag) ∧
      WBU.hitDataAssert (R.state 10).core.wbuPipe (respAt R 10) = false := by
  decide +kernel

end JYDSoC
end Soc
end Jyd
