import Jyd.Nemu.Xlistrev
import Jyd.Soc.ListReversal

/-!
# XlistrevContract — list reversal against the reference simulator

The two adjacent instructions of the list-reversal wrapper, on the SoC with its
default RAM and in the reference simulator: both relink every node to its predecessor,
change nothing else and return the old tail.
-/

namespace Jyd
namespace Soc

open Hdl Jyd.Core

/-! ## Encoding -/

/-- `.insn r opcode, func3, func7, rd, rs1, rs2`. -/
def insnR (opcode : BitVec 7) (func3 : BitVec 3) (func7 : BitVec 7) (rd rs1 rs2 : BitVec 5) : Word :=
  func7 ++ rs2 ++ rs1 ++ func3 ++ rd ++ opcode

theorem insnR_fields (opcode : BitVec 7) (func3 : BitVec 3) (func7 : BitVec 7)
    (rd rs1 rs2 : BitVec 5) :
    IDU.opcode (insnR opcode func3 func7 rd rs1 rs2) = opcode ∧
      IDU.func3 (insnR opcode func3 func7 rd rs1 rs2) = func3 ∧
      IDU.func7 (insnR opcode func3 func7 rd rs1 rs2) = func7 ∧
      (insnR opcode func3 func7 rd rs1 rs2).extractLsb' 7 5 = rd ∧
      (insnR opcode func3 func7 rd rs1 rs2).extractLsb' 15 5 = rs1 ∧
      (insnR opcode func3 func7 rd rs1 rs2).extractLsb' 20 5 = rs2 := by
  simp only [IDU.opcode, IDU.func3, IDU.func7, insnR]
  refine ⟨?_, ?_, ?_, ?_, ?_, ?_⟩ <;> apply BitVec.eq_of_getLsbD_eq <;> intro n hn <;>
    simp only [BitVec.getLsbD_extractLsb', BitVec.getLsbD_append] <;> grind

/-- `.insn r 0x0b, 6, 0, rd, rs1, zero`. -/
def xlistrevInit (rd rs1 : BitVec 5) : Word := insnR 0x0b#7 6#3 0#7 rd rs1 0#5

/-- `.insn r 0x0b, 6, 2, rd, rd, zero`. -/
def xlistrevLoop (rd : BitVec 5) : Word := insnR 0x0b#7 6#3 2#7 rd rd 0#5

theorem decode_insnR (opcode : BitVec 7) (func3 : BitVec 3) (func7 : BitVec 7)
    (rd rs1 rs2 : BitVec 5) :
    insnR opcode func3 func7 rd rs1 rs2 &&& 0xfe00707f#32 =
      insnR opcode func3 func7 0#5 0#5 0#5 := by
  have hmask : (0xfe00707f#32) =
      insnR (BitVec.allOnes 7) (BitVec.allOnes 3) (BitVec.allOnes 7) 0#5 0#5 0#5 := by decide
  rw [hmask]
  apply BitVec.eq_of_getLsbD_eq
  intro n hn
  simp only [insnR, BitVec.getLsbD_and, BitVec.getLsbD_append, BitVec.getLsbD_allOnes]
  grind

theorem nemu_decode (rd rs1 : BitVec 5) :
    Nemu.decode (xlistrevInit rd rs1) = some (.xlistrevInit rd rs1) ∧
      Nemu.decode (xlistrevLoop rd) = some (.xlistrevLoop rd rd) := by
  have hinit := insnR_fields 0x0b#7 6#3 0#7 rd rs1 0#5
  have hloop := insnR_fields 0x0b#7 6#3 2#7 rd rd 0#5
  have hkey : insnR 0x0b#7 6#3 0#7 0#5 0#5 0#5 = 0x0000600b#32 ∧
      insnR 0x0b#7 6#3 2#7 0#5 0#5 0#5 = 0x0400600b#32 := by decide
  refine ⟨?_, ?_⟩
  · simp [Nemu.decode, xlistrevInit, decode_insnR, hinit, hkey]
  · simp [Nemu.decode, xlistrevLoop, decode_insnR, hloop, hkey]

theorem loopEncoding_xlistrevLoop (rd : BitVec 5) :
    IDU.isListReverseLoopEncoding (xlistrevLoop rd) = true := by
  have h := insnR_fields 0x0b#7 6#3 2#7 rd rd 0#5
  simp [IDU.isListReverseLoopEncoding, xlistrevLoop, h]

namespace JYDSoC

open LinkedList

/-! ## Nodes in the data RAM -/

/-- A word-aligned address of the 64 KB data RAM. -/
abbrev DramNode (a : Word) : Prop :=
  0x80100000 ≤ a.toNat ∧ a.toNat < 0x80110000 ∧ a.toNat % 4 = 0

variable {rom : Rom} {a b : Word}

theorem cellOf_dramNode (h : DramNode a) :
    a.toNat = 0x80100000 + 4 * cellOf (jydSoC rom) a := by
  have hcell : cellOf (jydSoC rom) a = a.toNat % 65536 / 4 := SimpleBusMem.wordIndex_64KB a
  rw [hcell]
  omega

theorem cellOf_injOn (ha : DramNode a) (hb : DramNode b)
    (h : cellOf (jydSoC rom) a = cellOf (jydSoC rom) b) : a = b := by
  apply BitVec.eq_of_toNat_eq
  rw [@cellOf_dramNode rom a ha, @cellOf_dramNode rom b hb, h]

theorem inDram_of_dramNode (h : DramNode a) : EXU.inDramRegion a = true := by
  have hbits : a.extractLsb' 20 2 = 0b01#2 := by
    apply BitVec.eq_of_toNat_eq
    rw [BitVec.extractLsb'_toNat, Nat.shiftRight_eq_div_pow]
    have htoNat : (0b01#2).toNat = 1 := rfl
    rw [htoNat]
    omega
  simp [EXU.inDramRegion, hbits]

/-- The bytes of the data RAM, as the simulator's memory. -/
def pmemOf (c : Config) (mem : ℕ → Word) : Nemu.Pmem := fun a =>
  byteOf (mem (cellOf c a)) (a.toNat % 4)

theorem agrees_pmemOf (mem : ℕ → Word) :
    Nemu.Agrees DramNode (cellOf (jydSoC rom)) (pmemOf (jydSoC rom) mem) mem := by
  intro a ha
  apply eq_of_byteOf
  intro k hk
  have hnat : (a + BitVec.ofNat 32 k).toNat = a.toNat + k := by
    rw [BitVec.toNat_add, BitVec.toNat_ofNat]
    omega
  have hcell : cellOf (jydSoC rom) (a + BitVec.ofNat 32 k) = cellOf (jydSoC rom) a := by
    simp only [cellOf, jydSoC, SimpleBusMem.wordIndex_64KB, hnat]
    omega
  have hlane : (a.toNat + k) % 4 = k := by omega
  rw [Nemu.byteOf_vaddrRead hk, pmemOf, hcell, hnat, hlane]

/-! ## The contract -/

/-- The first instruction has just arrived in EXU; `S` are the sequential registers. -/
structure StartsXlistrev (rom : Rom) (e : BitVec 15) (S : RegisterFile.Regs) (s : Regs) : Prop where
  consistent : Consistent (c := jydSoC rom) window64KB e s
  valid : CPUCore.exuInValid s.core = true
  fresh : EXU.busy s.core.exu = false
  regs : ∀ i, drainedRegs (jydSoC rom) i s = S
  operands : CPUCore.HeldOperands s.core.exuPipe.bits S

/-- Every instruction that arrives in EXU on a run does so in such a state. -/
theorem startsXlistrev {R : Run (machine (jydSoC rom))} {t : ℕ}
    (h : ∀ k < t, StoresInWindow (jydSoC rom) (R.input k) (R.state k))
    (hv : CPUCore.exuInValid (R.state t).core = true) (hfresh : EXU.busy (R.state t).core.exu = false) :
    StartsXlistrev rom (expectedAt R t) (seqRegs R t) (R.state t) := by
  have hdisc := disciplinedBefore_of_storesInWindow h
  refine ⟨⟨frontInv R t, portInv R t, cacheInv hdisc⟩, hv, hfresh, ?_, ?_⟩
  · intro i
    rw [seqRegs_eq]
    rfl
  · rcases issuedOk hdisc hv with ⟨j, hj⟩
    exact CPUCore.heldOperands hj

variable {e : BitVec 15} {S : RegisterFile.Regs} {s : Regs} {rd rs1 : BitVec 5}

theorem StartsXlistrev.zero (h : StartsXlistrev rom e S s) : S 0#5 = 0#32 := by
  rw [← h.regs ⟨SimpleBusROM.schedule, 0⟩]
  simp [drainedRegs, CPUCore.lsuWrites, RegisterFile.read]

theorem StartsXlistrev.atInit (h : StartsXlistrev rom e S s)
    (hinit : program (jydSoC rom) e = xlistrevInit rd rs1) :
    AtInit (c := jydSoC rom) window64KB e s.core.exuPipe.bits s.bus.dram.mem S (S rs1) s := by
  have hcode : s.core.exuPipe.bits.code = xlistrevInit rd rs1 := (h.consistent.code h.valid).trans hinit
  have hfields := insnR_fields 0x0b#7 6#3 0#7 rd rs1 0#5
  have hdec := h.consistent.front.decoded h.valid
  have hkind : EXU.isListReverse s.core.exuPipe.bits = true := by
    have hcustom : IDU.isListReverseCustom s.core.exuPipe.bits.code = true := by
      rw [hcode]
      simp [IDU.isListReverseCustom, IDU.isListReverseEncoding, xlistrevInit, hfields]
    rcases hdec with ⟨j, hj⟩
    rw [hj] at hcustom ⊢
    exact hcustom
  have hfirst : EXU.isListReverseLoop s.core.exuPipe.bits = false := by
    rw [hdec.listReverseLoop_eq, hcode]
    simp [IDU.isListReverseLoopEncoding, xlistrevInit, hfields]
  have hholds : HoldsList (c := jydSoC rom) window64KB e s.core.exuPipe.bits s :=
    ⟨h.consistent, h.valid, rfl, hkind⟩
  have hslow : EXU.resultIsFast s.core.exuPipe.bits = false := by
    simp [EXU.resultIsFast, hholds.lane.1]
  have hmeta := IDU.metaInfo_custom0 s.core.exuPipe.bits.code
    (by rw [hcode]; exact hfields.1)
  have hfmt : EXU.isFmtI s.core.exuPipe.bits = false := by
    rcases hdec with ⟨j, hj⟩
    rw [hj] at hmeta ⊢
    have hmeta' : IDU.metaInfo (IDU.inst j) = ⟨.reg, .arithmetic⟩ := hmeta
    simp [EXU.isFmtI, IDU.outBits, IDU.info, hmeta']
  have hops := h.operands.special (EXU.isTypArithmetic_of_listReverse hdec hkind) hslow hfirst
  have hrs1 : IDU.rs1 s.core.exuPipe.bits.code = rs1 := by
    rw [hcode]
    exact hfields.2.2.2.2.1
  have hrs2 : IDU.rs2 s.core.exuPipe.bits.code = 0#5 := by
    have hfield : s.core.exuPipe.bits.code.extractLsb' 20 5 = 0#5 := by
      rw [hcode]
      exact hfields.2.2.2.2.2
    simp [IDU.rs2, hfield]
  refine ⟨hholds, ?_, hfirst, ?_, ?_, rfl, h.regs⟩
  · have hfresh := h.fresh
    simp only [EXU.busy, Bool.or_eq_false_iff, bne_eq_false_iff_eq] at hfresh
    exact hfresh.1.1
  · rw [hops.1, hrs1]
  · rw [hops.2, hfmt, hrs2]
    exact h.zero

/-- Started on a list in the data RAM, the two instructions terminate: every node points to
its predecessor, no other word changes, the register holds the old tail, and memory and
registers are those of the reference simulator behind the same two instructions. -/
theorem xlistrev_reverses_list (rom : Rom) (e : BitVec 15) (S : RegisterFile.Regs)
    (rd rs1 : BitVec 5) (hrd : rd ≠ 0#5)
    (hinit : program (jydSoC rom) e = xlistrevInit rd rs1)
    (hloop : program (jydSoC rom) (e + 1) = xlistrevLoop rd)
    (R : Run (⟨StartsXlistrev rom e S, next (jydSoC rom)⟩ : Machine In Regs)) (hrom : RomServes R)
    (nodes : List Word) (hne : nodes ≠ []) (hnodes : ∀ a ∈ nodes, DramNode a) (hnodup : nodes.Nodup)
    (hlist : Linked 0#32 (cellOf (jydSoC rom)) (R.state 0).bus.dram.mem (S rs1) nodes)
    (n : Nemu.Cpu) (hgpr : n.gpr = S)
    (hpmem : Nemu.Agrees DramNode (cellOf (jydSoC rom)) n.pmem (R.state 0).bus.dram.mem) :
    ∃ t, completes (jydSoC rom) (R.input t) (R.state t) = true ∧
      (R.state t).core.exuPipe.bits.code = xlistrevLoop rd ∧
      CPUCore.nextExpected (R.state t).core (coreIn (jydSoC rom) (R.input t) (R.state t)) (e + 1) =
        e + 2 ∧
      (∀ k (hk : k < nodes.length),
        (R.state (t + 1)).bus.dram.mem (cellOf (jydSoC rom) nodes[k]) =
          (0#32 :: nodes).get ⟨k, Nat.lt_succ_of_lt hk⟩) ∧
      (∀ x, (∀ a ∈ nodes, cellOf (jydSoC rom) a ≠ x) →
        (R.state (t + 1)).bus.dram.mem x = (R.state 0).bus.dram.mem x) ∧
      (∀ i, drainedRegs (jydSoC rom) i (R.state (t + 1)) =
        Function.update S rd (nodes.getLast hne)) ∧
      ∃ init loop, Nemu.decode (xlistrevInit rd rs1) = some init ∧
        Nemu.decode (xlistrevLoop rd) = some loop ∧ (n.exec init).pc = n.pc + 4 ∧
        ∃ k, (∀ j ≤ k, ((Nemu.Cpu.exec · loop)^[j] (n.exec init)).pc = n.pc + 4) ∧
          ((Nemu.Cpu.exec · loop)^[k + 1] (n.exec init)).pc = n.pc + 8 ∧
          Nemu.Agrees DramNode (cellOf (jydSoC rom))
            ((Nemu.Cpu.exec · loop)^[k + 1] (n.exec init)).pmem (R.state (t + 1)).bus.dram.mem ∧
          ∀ i, ((Nemu.Cpu.exec · loop)^[k + 1] (n.exec init)).gpr =
            drainedRegs (jydSoC rom) i (R.state (t + 1)) := by
  have hstart := R.init
  have hat := hstart.atInit hinit
  have hcells : (nodes.map (cellOf (jydSoC rom))).Nodup :=
    hnodup.map_on (fun a ha b hb h => cellOf_injOn (hnodes a ha) (hnodes b hb) h)
  have hloopEnc : IDU.isListReverseLoopEncoding (program (jydSoC rom) (e + 1)) = true := by
    rw [hloop]
    exact loopEncoding_xlistrevLoop rd
  have hrdOp : IDU.rd (R.state 0).core.exuPipe.bits.code = rd := by
    rw [hstart.consistent.code hstart.valid, hinit]
    exact (insnR_fields _ _ _ _ _ _).2.2.2.1
  have hrdLoop : IDU.rd (program (jydSoC rom) (e + 1)) = rd := by
    rw [hloop]
    exact (insnR_fields _ _ _ _ _ _).2.2.2.1
  rcases xlistrev_last hrom hloopEnc (hrdLoop.trans hrdOp.symm) hlist hne
    (fun a ha => inDram_of_dramNode (hnodes a ha)) hcells hat.first 0 hat with ⟨t, _, hlast⟩
  have hmem : (R.state (t + 1)).bus.dram.mem =
      relink (cellOf (jydSoC rom)) (R.state 0).bus.dram.mem 0#32 nodes := by
    rw [R.step t]
    exact (hlast.holds.mem_kept (by simp [hlast.state])).trans hlast.mem
  have hregs : ∀ i, drainedRegs (jydSoC rom) i (R.state (t + 1)) =
      Function.update S rd (nodes.getLast hne) := by
    intro i
    rw [R.step t]
    refine (hlast.regs (R.input t) i).trans ?_
    rw [writeReg, hrdOp, if_neg hrd, lastNode_eq_getLast hne]
  have hlist' : Linked 0#32 (cellOf (jydSoC rom)) (R.state 0).bus.dram.mem (n.gpr rs1) nodes := by
    rw [hgpr]
    exact hlist
  have hzero : n.gpr 0#5 = 0#32 := by
    rw [hgpr]
    exact hstart.zero
  rcases Nemu.xlistrev_reverses (fun ha => ha.2.2) cellOf_injOn hrd hlist' hne hnodes hcells
    hzero hpmem with
    ⟨hpc, k, hstay, hleave, hagrees, hgpr'⟩
  rcases nemu_decode rd rs1 with ⟨hdecInit, hdecLoop⟩
  refine ⟨t, hlast.holds.completes_of_done hlast.state, ?_, ?_, ?_, ?_, hregs, _, _, hdecInit,
    hdecLoop, hpc, k, hstay, hleave, ?_, ?_⟩
  · rw [hlast.holds.consistent.code hlast.holds.valid, hloop]
  · rw [hlast.holds.expected_of_done hlast.state, hlast.loop, hlast.taken]
    exact BitVec.add_assoc e 1 1
  · intro j hj
    rw [hmem]
    exact relink_node hcells hj
  · intro x hx
    rw [hmem]
    exact relink_of_ne hx
  · rw [hmem]
    exact hagrees
  · intro i
    rw [hregs, hgpr', hgpr, lastNode_eq_getLast hne]

/-- Links `0x80100000` to `0x80100004` and reverses the list. -/
def reverseTwo : List Word :=
  [0x801000b7#32, 0x00408113#32, 0x0020a023#32, xlistrevInit 3#5 1#5, xlistrevLoop 3#5]

theorem xlistrev_reverses_list_two :
    let c := jydSoC (romOf reverseTwo)
    let R := run c
    Linked 0#32 (cellOf c) (R.state 7).bus.dram.mem (seqRegs R 7 1#5)
        [0x80100000#32, 0x80100004#32] ∧
      ∃ t, (R.state t).bus.dram.mem 0 = 0#32 ∧ (R.state t).bus.dram.mem 1 = 0x80100000#32 ∧
        ∀ i, drainedRegs c i (R.state t) = Function.update (seqRegs R 7) 3#5 0x80100004#32 := by
  have hprogram : program (jydSoC (romOf reverseTwo)) 3 = xlistrevInit 3#5 1#5 ∧
      program (jydSoC (romOf reverseTwo)) (3 + 1) = xlistrevLoop 3#5 := by decide +kernel
  have hcells : cellOf (jydSoC (romOf reverseTwo)) 0x80100000#32 = 0 ∧
      cellOf (jydSoC (romOf reverseTwo)) 0x80100004#32 = 1 := by decide +kernel
  have hnodes : ∀ a ∈ [0x80100000#32, 0x80100004#32], DramNode a := by
    intro a ha
    simp only [List.mem_cons, List.not_mem_nil, or_false] at ha
    rcases ha with rfl | rfl <;> simp [DramNode]
  -- the run is a variable here, so that no step below evaluates it
  have hany : ∀ R : Run (machine (jydSoC (romOf reverseTwo))),
      (∀ k < 7, StoresInWindow (jydSoC (romOf reverseTwo)) (R.input k) (R.state k)) →
      CPUCore.exuInValid (R.state 7).core = true → EXU.busy (R.state 7).core.exu = false →
      (R.state 7).core.exuPipe.bits.pc = 0x8000000c#32 →
      (∀ t, (R.input t).irom = SimpleBusROM.schedule) →
      Linked 0#32 (cellOf (jydSoC (romOf reverseTwo))) (R.state 7).bus.dram.mem (seqRegs R 7 1#5)
        [0x80100000#32, 0x80100004#32] →
      ∃ t, (R.state t).bus.dram.mem 0 = 0#32 ∧ (R.state t).bus.dram.mem 1 = 0x80100000#32 ∧
        ∀ i, drainedRegs (jydSoC (romOf reverseTwo)) i (R.state t) =
          Function.update (seqRegs R 7) 3#5 0x80100004#32 := by
    intro R hwindow hv hfresh hpc hirom hlist
    have hstart := startsXlistrev hwindow hv hfresh
    have hexpected : expectedAt R 7 = 3#15 := by
      have hat := CPUCore.pc_of_valid hstart.consistent.front.front hstart.consistent.front.phase hv
      rw [← TrimmedPC.trim_expand (expectedAt R 7), ← hat, hpc]
      decide
    rw [hexpected] at hstart
    have hserves : RomServes (R.drop 7 hstart) := by
      refine ⟨?_, ?_⟩ <;> intro t <;> refine ⟨t, le_rfl, ?_⟩
      · show (R.input (7 + t)).irom.ready = true
        rw [hirom]
        rfl
      · show (R.input (7 + t)).irom.answer = true
        rw [hirom]
        rfl
    rcases xlistrev_reverses_list (romOf reverseTwo) 3 (seqRegs R 7) 3#5 1#5 (by decide)
      hprogram.1 hprogram.2 (R.drop 7 hstart) hserves [0x80100000#32, 0x80100004#32]
      (by simp) hnodes (by decide) hlist
      ⟨0, seqRegs R 7, pmemOf (jydSoC (romOf reverseTwo)) (R.state 7).bus.dram.mem, 0,
        fun _ => 0, fun _ => 0, 0⟩ rfl (agrees_pmemOf _) with ⟨t, _, _, _, hlinks, _, hregs, _⟩
    refine ⟨7 + (t + 1), ?_, ?_, hregs⟩
    · rw [← hcells.1]
      exact hlinks 0 (by simp)
    · rw [← hcells.2]
      exact hlinks 1 (by simp)
  intro c R
  have hlist : Linked 0#32 (cellOf c) (R.state 7).bus.dram.mem (seqRegs R 7 1#5)
      [0x80100000#32, 0x80100004#32] := by
    decide +kernel
  refine ⟨hlist, hany R ?_ ?_ ?_ ?_ (fun _ => rfl) hlist⟩ <;> decide +kernel

end JYDSoC
end Soc
end Jyd
