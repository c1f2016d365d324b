import Jyd.Core.ExuOccupancy

/-!
# CsrExecution — system instructions on the CSR file

A system instruction captures everything in its first cycle and commits when it leaves.
The four writable registers are found through a table whose default is the entry of
`mstatus`; the frame property below holds exactly when an instruction that falls through
to that entry stores the value which is already there.
-/

namespace Jyd
namespace Core
namespace CsrTransaction

open Hdl ControlStatusRegisterFile

/-! ## Instructions -/

/-- A system instruction with its operand; register zero reads as zero. -/
structure Op where
  code : Word
  pc : Word
  reg_v1 : Word
  target : Word
  zero : code.extractLsb' 15 5 = 0#5 → reg_v1 = 0#32

namespace Op

variable (op : Op)

def isECall : Bool := IDU.isECall op.code
def isMRet : Bool := IDU.isMRet op.code
def addr : BitVec 12 := op.code.extractLsb' 20 12
def func3 : BitVec 3 := op.code.extractLsb' 12 3

/-- `1`: write, `2`: set, `3`: clear; `0` is no CSR instruction. -/
def kind : BitVec 2 := op.func3.extractLsb' 0 2

def mask : Word := if op.func3.getLsbD 2 then (op.code.extractLsb' 15 5).setWidth 32 else op.reg_v1

/-- What the instruction stores over the value it has read. -/
def newValue (old : Word) : Word :=
  if op.kind == 3#2 then old &&& ~~~op.mask
  else if op.kind == 2#2 then old ||| op.mask
  else op.mask

/-- The effect of the instruction on the writable registers. -/
def effect (csrs : ControlStatusRegisterFile.Regs) : BitVec 2 → Word :=
  if op.isECall then Function.update (Function.update csrs.waregs 1 op.pc) 2 11#32
  else if op.kind != 0#2 then
    Function.update csrs.waregs (walut op.addr) (op.newValue (readData csrs op.addr))
  else csrs.waregs

theorem kind_of_isECall (h : op.isECall = true) : op.kind = 0#2 := by
  have hcode : op.code = 0x73#32 := by simpa [isECall, IDU.isECall] using h
  rw [kind, func3, hcode]
  decide

end Op

/-! ## Cycles -/

/-- A cycle in which EXU presents `op`; it leaves only when prepared. -/
structure Presents (op : Op) (r : Regs) (i : In) : Prop where
  valid : i.valid = true
  isTypSys : i.isTypSys = true
  isECall : i.isECall = op.isECall
  isMRet : i.isMRet = op.isMRet
  code : i.code = op.code
  pc : i.pc = op.pc
  reg_v1 : i.reg_v1 = op.reg_v1
  target : i.staticNextPCOrCSRTarget = op.target
  fire : i.outFire = true → r.csrPrepared = true

/-- The cycles of one instruction, with the value it returns. -/
inductive Executes (op : Op) : Regs → Regs → Word → Prop
  | wait {r r' : Regs} {v : Word} {i : In} : Presents op r i → i.outFire = false →
      Executes op (next r i) r' v → Executes op r r' v
  | fire {r : Regs} {i : In} : Presents op r i → i.outFire = true →
      Executes op r (next r i) r.csrReadDataReg

/-- The transaction has captured `op` over the register file `csrs`. -/
structure Captured (op : Op) (csrs : ControlStatusRegisterFile.Regs) (r : Regs) : Prop where
  prepared : r.csrPrepared = true
  read : r.csrReadDataReg = readData csrs op.addr
  en : r.csrWriteEnReg = (op.kind != 0#2)
  addr : r.csrWriteAddrReg = if op.isECall then CSRAddr.mepc else op.addr
  data : r.csrWriteDataReg = if op.isECall then op.pc else op.newValue (readData csrs op.addr)
  ecall : r.csrECallReg = op.isECall
  waregs : r.csrs.waregs = csrs.waregs

variable {op : Op} {r r' : Regs} {i : In} {v : Word} {csrs : ControlStatusRegisterFile.Regs}

/-- The first cycle captures. -/
theorem Presents.capture (h : Presents op r i) (hidle : r.csrPrepared = false) :
    Captured op r.csrs (next r i) := by
  have hfunc3 : func3t i = op.func3 := by rw [func3t, h.code, Op.func3]
  have haddr : csr_raddr i = op.addr := by rw [csr_raddr, h.code, Op.addr]
  have hmask : csrOpMask i = op.mask := by
    rw [csrOpMask, hfunc3, csrUIMM, h.code, h.reg_v1, Op.mask]
  have hno : commits r i = false := by simp [commits, hidle]
  have hnext : next r i =
      { r with
        csrs := ControlStatusRegisterFile.next r.csrs (write r i)
        csrPrepared := true
        csrReadDataReg := csr_rdata r i
        csrNextPCReg :=
          if i.isECall then ControlStatusRegisterFile.mtvec r.csrs
          else if i.isMRet then ControlStatusRegisterFile.mepc r.csrs
          else i.staticNextPCOrCSRTarget
        csrWriteEnReg := csrWrEnable i
        csrWriteAddrReg := csrWrAddr i
        csrWriteDataReg := csrWrData r i
        csrECallReg := i.isECall } := by
    simp [next, h.valid, h.isTypSys, hidle]
  rw [hnext]
  refine ⟨rfl, ?_, ?_, ?_, ?_, h.isECall, ?_⟩
  · rw [csr_rdata, haddr]
  · simp [csrWrEnable, h.isTypSys, hfunc3, Op.kind]
  · simp [csrWrAddr, h.isTypSys, h.isECall, haddr]
  · simp [csrWrData, h.isECall, h.pc, hfunc3, csr_rdata, haddr, hmask, Op.newValue, Op.kind]
  · simp [ControlStatusRegisterFile.next, write, hno, isTrap]

/-- Waiting keeps what was captured. -/
theorem Captured.wait (h : Captured op csrs r) (hp : Presents op r i) (hwait : i.outFire = false) :
    Captured op csrs (next r i) := by
  have hno : commits r i = false := by simp [commits, hwait]
  have hnext : next r i = { r with csrs := ControlStatusRegisterFile.next r.csrs (write r i) } := by
    simp [next, hp.valid, hp.isTypSys, h.prepared, hwait]
  rw [hnext]
  refine ⟨h.prepared, h.read, h.en, h.addr, h.data, h.ecall, ?_⟩
  simpa [ControlStatusRegisterFile.next, write, hno, isTrap] using h.waregs

/-- The last cycle commits. -/
theorem Captured.fire (h : Captured op csrs r) (hp : Presents op r i) (hfire : i.outFire = true) :
    (next r i).csrs.waregs = op.effect csrs ∧ (next r i).csrPrepared = false := by
  have hcommit : commits r i = true := by simp [commits, hfire, hp.isTypSys, h.prepared]
  have hnext : next r i =
      { r with
        csrs := ControlStatusRegisterFile.next r.csrs (write r i)
        csrPrepared := false } := by
    simp [next, hp.valid, hp.isTypSys, h.prepared, hfire]
  rw [hnext]
  refine ⟨?_, rfl⟩
  have hmepc : walut CSRAddr.mepc = 1 := by decide
  cases hecall : op.isECall with
  | true =>
    simp [ControlStatusRegisterFile.next, write, hcommit, isTrap, h.addr, h.data, h.ecall, h.waregs,
      hecall, Op.effect, hmepc]
  | false =>
    simp [ControlStatusRegisterFile.next, write, hcommit, isTrap, h.en, h.addr, h.data, h.ecall,
      h.waregs, hecall, Op.effect]

theorem Captured.executes (h : Captured op csrs r) (hex : Executes op r r' v) :
    r'.csrs.waregs = op.effect csrs ∧ v = readData csrs op.addr ∧ r'.csrPrepared = false := by
  induction hex with
  | wait hp hwait _ ih => exact ih (h.wait hp hwait)
  | fire hp hfire =>
    rcases h.fire hp hfire with ⟨hwaregs, hidle⟩
    exact ⟨hwaregs, h.read, hidle⟩

/-- Whatever the delays, an instruction has its effect on the registers it arrived at and
returns the value that its address had there. -/
theorem Executes.eq_effect (hidle : r.csrPrepared = false) (hex : Executes op r r' v) :
    r'.csrs.waregs = op.effect r.csrs ∧ v = readData r.csrs op.addr ∧ r'.csrPrepared = false := by
  cases hex with
  | wait hp hwait hrest => exact (hp.capture hidle).executes hrest
  | fire hp hfire => exact absurd (hidle.symm.trans (hp.fire hfire)) (by decide)

/-! ## The frame of an instruction -/

/-- The addresses that an instruction may write. -/
def Op.Names (op : Op) (a : BitVec 12) : Prop :=
  if op.isECall then a = CSRAddr.mepc ∨ a = CSRAddr.mcause else a = op.addr

instance (op : Op) (a : BitVec 12) : Decidable (op.Names a) := by
  unfold Op.Names
  infer_instance

/-- A set or clear with `x0` or with a zero immediate. -/
def Op.OnlyReads (op : Op) : Prop := (op.kind = 2#2 ∨ op.kind = 3#2) ∧ op.code.extractLsb' 15 5 = 0#5

/-- The CSR file as a map: only the named address changes, and a pure read changes none.
The cycle counter moves by itself. -/
structure Framed (op : Op) (before after : ControlStatusRegisterFile.Regs) : Prop where
  others : ∀ a, a ≠ CSRAddr.mcycle → ¬ op.Names a → readData after a = readData before a
  reads : op.OnlyReads → ∀ a, a ≠ CSRAddr.mcycle → readData after a = readData before a

/-- The instruction names `mepc`, `mcause` or `mtvec`, or writes none, or writes back to the
default entry what `mstatus` holds already. -/
def KeepsStatus (op : Op) (before : ControlStatusRegisterFile.Regs) : Prop :=
  op.isECall = true ∨ op.kind = 0#2 ∨ walut op.addr ≠ 0#2 ∨
    op.newValue (readData before op.addr) = before.waregs 0

variable {before after : ControlStatusRegisterFile.Regs}

theorem walut_ne {a b : BitVec 12} (hab : a ≠ b) (hb : walut b ≠ 0#2) : walut a ≠ walut b := by
  simp only [walut, beq_iff_eq] at hb ⊢
  split_ifs at hb ⊢ <;> simp_all

theorem readData_of_waregs {a : BitVec 12} (ha : a ≠ CSRAddr.mcycle)
    (h : after.waregs (walut a) = before.waregs (walut a)) : readData after a = readData before a := by
  have hhigh : ∀ csrs : ControlStatusRegisterFile.Regs,
      (mcycle64 csrs).extractLsb' 32 32 = 0#32 := by
    intro csrs
    apply BitVec.eq_of_getLsbD_eq
    intro n hn
    simp only [mcycle64, BitVec.getLsbD_extractLsb', BitVec.getLsbD_append]
    grind
  simp [readData, ha, h, hhigh]

theorem Op.mask_of_onlyReads (h : op.OnlyReads) : op.mask = 0#32 := by
  rw [mask, h.2, op.zero h.2]
  split <;> rfl

/-- A pure read stores the value it has read. -/
theorem Op.newValue_of_onlyReads (h : op.OnlyReads) (old : Word) : op.newValue old = old := by
  have hmask := Op.mask_of_onlyReads h
  have hall : old &&& ~~~0#32 = old := BitVec.and_allOnes
  rcases h.1 with hk | hk
  · simp [newValue, hk, hmask]
  · rw [newValue, hk, hmask]
    exact hall

/-- The table entries other than the default belong to one address each. -/
theorem readData_of_walut {a : BitVec 12} (ha : walut a ≠ 0#2) :
    readData before a = before.waregs (walut a) := by
  have hspecial : a ≠ CSRAddr.mcycle ∧ a ≠ CSRAddr.mcycleh ∧ a ≠ CSRAddr.mvendorid ∧
      a ≠ CSRAddr.marchid := by
    refine ⟨?_, ?_, ?_, ?_⟩ <;> rintro rfl <;> exact ha (by decide)
  simp [readData, hspecial]

theorem framed_of_keepsStatus (hafter : after.waregs = op.effect before)
    (h : KeepsStatus op before) : Framed op before after := by
  cases hecall : op.isECall with
  | true =>
    have hkind := op.kind_of_isECall hecall
    refine ⟨?_, ?_⟩
    · intro a ha hnames
      apply readData_of_waregs ha
      simp only [Op.Names, hecall, if_true, not_or] at hnames
      have h1 : walut a ≠ 1#2 := walut_ne (b := CSRAddr.mepc) hnames.1 (by decide)
      have h2 : walut a ≠ 2#2 := walut_ne (b := CSRAddr.mcause) hnames.2 (by decide)
      simp [hafter, Op.effect, hecall, h1, h2]
    · intro hreads
      rcases hreads.1 with hk | hk <;> exact absurd (hkind.symm.trans hk) (by decide)
  | false =>
    by_cases hkind : op.kind = 0#2
    · have hsame : after.waregs = before.waregs := by simp [hafter, Op.effect, hecall, hkind]
      exact ⟨fun a ha _ => readData_of_waregs ha (by rw [hsame]),
        fun _ a ha => readData_of_waregs ha (by rw [hsame])⟩
    have heffect : after.waregs =
        Function.update before.waregs (walut op.addr) (op.newValue (readData before op.addr)) := by
      simp [hafter, Op.effect, hecall, hkind]
    by_cases hentry : walut op.addr = 0#2
    · -- the default entry gets the value it has
      have hkeep : op.newValue (readData before op.addr) = before.waregs (walut op.addr) := by
        rw [hentry]
        simpa [KeepsStatus, hecall, hkind, hentry] using h
      have hsame : after.waregs = before.waregs := by
        rw [heffect, hkeep, Function.update_eq_self]
      exact ⟨fun a ha _ => readData_of_waregs ha (by rw [hsame]),
        fun _ a ha => readData_of_waregs ha (by rw [hsame])⟩
    · refine ⟨?_, ?_⟩
      · intro a ha hnames
        apply readData_of_waregs ha
        have hne : a ≠ op.addr := by simpa [Op.Names, hecall] using hnames
        rw [heffect, Function.update_of_ne (walut_ne hne hentry)]
      · intro hreads a ha
        apply readData_of_waregs ha
        rw [heffect, Op.newValue_of_onlyReads hreads, readData_of_walut hentry,
          Function.update_eq_self]

/-- Some other address shows what the default entry holds. -/
theorem exists_alias (a : BitVec 12) : ∃ b, b ≠ a ∧ b ≠ CSRAddr.mcycle ∧
    ∀ csrs : ControlStatusRegisterFile.Regs, readData csrs b = csrs.waregs 0 := by
  by_cases ha : a = CSRAddr.mstatus
  · refine ⟨0#12, ?_, by decide, fun csrs => rfl⟩
    rw [ha]
    decide
  · exact ⟨CSRAddr.mstatus, Ne.symm ha, by decide, fun csrs => rfl⟩

theorem keepsStatus_of_framed (hafter : after.waregs = op.effect before)
    (h : Framed op before after) : KeepsStatus op before := by
  cases hecall : op.isECall with
  | true => exact Or.inl hecall
  | false =>
    by_cases hkind : op.kind = 0#2
    · exact Or.inr (Or.inl hkind)
    by_cases hentry : walut op.addr = 0#2
    · refine Or.inr (Or.inr (Or.inr ?_))
      rcases exists_alias op.addr with ⟨b, hb, hcycle, hread⟩
      have hnames : ¬ op.Names b := by simpa [Op.Names, hecall] using hb
      have hkept := h.others b hcycle hnames
      rw [hread, hread, hafter] at hkept
      simpa [Op.effect, hecall, hkind, hentry] using hkept
    · exact Or.inr (Or.inr (Or.inl hentry))

/-! ## Sequences -/

/-- An executed instruction with the register file on both sides. -/
structure Executed where
  op : Op
  before : ControlStatusRegisterFile.Regs
  after : ControlStatusRegisterFile.Regs

/-- Cycles in which an instruction is presented and does not leave. -/
inductive Waits (op : Op) : Regs → Regs → Prop
  | refl (r : Regs) : Waits op r r
  | step {r r' : Regs} {i : In} : Presents op r i → i.outFire = false → Waits op (next r i) r' →
      Waits op r r'

/-- System instructions one after the other, with any cycles in which EXU holds none, and
with instructions that a redirect removes before they leave. -/
inductive History : Regs → List Executed → Regs → Prop
  | nil (r : Regs) : History r [] r
  | other {r r' : Regs} {i : In} {es : List Executed} : r.csrPrepared = false → i.isTypSys = false →
      History (next r i) es r' → History r es r'
  | killed {r r₁ r' : Regs} {op : Op} {i : In} {es : List Executed} : r.csrPrepared = false →
      Waits op r r₁ → i.valid = false → i.outFire = false → History (next r₁ i) es r' →
      History r es r'
  | exec {r r₁ r' : Regs} {op : Op} {v : Word} {es : List Executed} : r.csrPrepared = false →
      Executes op r r₁ v → History r₁ es r' → History r (⟨op, r.csrs, r₁.csrs⟩ :: es) r'

theorem csrs_next : (next r i).csrs = ControlStatusRegisterFile.next r.csrs (write r i) := by
  unfold next
  dsimp only
  split_ifs <;> rfl

/-- Only a committing cycle changes a writable register. -/
theorem waregs_next (h : commits r i = false) : (next r i).csrs.waregs = r.csrs.waregs := by
  simp [csrs_next, ControlStatusRegisterFile.next, write, h, isTrap]

theorem Waits.waregs (h : Waits op r r') : r'.csrs.waregs = r.csrs.waregs := by
  induction h with
  | refl r => rfl
  | step _ hwait _ ih => rw [ih, waregs_next (by simp [commits, hwait])]

/-- In every sequence of system instructions over arbitrary addresses, an instruction keeps
to its frame exactly when it keeps `mstatus`; and behind instructions that all do, every
address that none of them names reads as before. -/
theorem csr_frame_iff {es : List Executed} (h : History r es r') :
    (∀ e ∈ es, Framed e.op e.before e.after ↔ KeepsStatus e.op e.before) ∧
      ((∀ e ∈ es, KeepsStatus e.op e.before) → ∀ a, a ≠ CSRAddr.mcycle →
        (∀ e ∈ es, ¬ e.op.Names a) → readData r'.csrs a = readData r.csrs a) := by
  induction h with
  | nil r => exact ⟨by simp, fun _ _ _ _ => rfl⟩
  | other hidle hsys _ ih =>
    refine ⟨ih.1, ?_⟩
    intro hkeeps a ha hnames
    rw [ih.2 hkeeps a ha hnames]
    exact readData_of_waregs ha (by rw [waregs_next (by simp [commits, hsys])])
  | killed hidle hwaits hinvalid hnofire _ ih =>
    refine ⟨ih.1, ?_⟩
    intro hkeeps a ha hnames
    rw [ih.2 hkeeps a ha hnames]
    exact readData_of_waregs ha (by rw [waregs_next (by simp [commits, hnofire]), hwaits.waregs])
  | exec hidle hex _ ih =>
    have heffect := (hex.eq_effect hidle).1
    refine ⟨?_, ?_⟩
    · intro e he
      rcases List.mem_cons.mp he with rfl | he
      · exact ⟨keepsStatus_of_framed heffect, framed_of_keepsStatus heffect⟩
      · exact ih.1 e he
    · intro hkeeps a ha hnames
      have hframed := framed_of_keepsStatus heffect (hkeeps _ List.mem_cons_self)
      rw [ih.2 (fun e he => hkeeps e (List.mem_cons_of_mem _ he)) a ha
        (fun e he => hnames e (List.mem_cons_of_mem _ he))]
      exact hframed.others a ha (hnames _ List.mem_cons_self)

/-! ## Concrete instructions -/

/-- A cycle that presents `op`. -/
def presenting (op : Op) (outFire : Bool) : In :=
  ⟨true, true, op.isECall, op.isMRet, op.code, op.pc, op.reg_v1, op.target, outFire⟩

/-- Two cycles suffice. -/
theorem executes_presenting (op : Op) (hidle : r.csrPrepared = false) :
    Executes op r (next (next r (presenting op false)) (presenting op true))
      (next r (presenting op false)).csrReadDataReg := by
  have hfirst : Presents op r (presenting op false) :=
    ⟨rfl, rfl, rfl, rfl, rfl, rfl, rfl, rfl, fun h => absurd (h : false = true) Bool.false_ne_true⟩
  have hcaptured := hfirst.capture hidle
  exact .wait hfirst rfl (.fire ⟨rfl, rfl, rfl, rfl, rfl, rfl, rfl, rfl, fun _ => hcaptured.prepared⟩ rfl)

/-- The transaction after reset, with `mstatus` at its reset value. -/
def resetState : Regs := ⟨false, 0, 0, false, 0, 0, false, ⟨0, fun k => if k = 0 then 0x1800#32 else 0⟩⟩

/-- `csrrw x0, mtvec, x1`. -/
def writeMtvec : Op := ⟨0x30509073#32, 0, 0x80000100#32, 0, fun h => absurd h (by decide)⟩

theorem csr_frame_iff_writeMtvec :
    ∃ r v, Executes writeMtvec resetState r v ∧ readData r.csrs CSRAddr.mtvec = 0x80000100#32 ∧
      readData r.csrs CSRAddr.mstatus = readData resetState.csrs CSRAddr.mstatus := by
  have hex := executes_presenting (r := resetState) writeMtvec rfl
  have hhist := History.exec rfl hex (.nil _)
  refine ⟨_, _, hex, ?_, ?_⟩
  · decide
  · refine (csr_frame_iff hhist).2 ?_ CSRAddr.mstatus (by decide) ?_
    · intro e he
      rw [List.mem_singleton.mp he]
      exact Or.inr (Or.inr (Or.inl (by decide)))
    · intro e he
      rw [List.mem_singleton.mp he]
      decide

/-- `csrrs x5, mvendorid, x0`. -/
def readVendor : Op := ⟨0xf11022f3#32, 0, 0, 0, fun _ => rfl⟩

/-- Reading the vendor number overwrites `mstatus` with it. -/
theorem status_lost_by_read :
    readVendor.OnlyReads ∧ readVendor.addr = CSRAddr.mvendorid ∧
      ∃ r v, Executes readVendor resetState r v ∧
        readData resetState.csrs CSRAddr.mstatus = 0x1800#32 ∧
        readData r.csrs CSRAddr.mstatus = 0x79737978#32 ∧
        ¬ Framed readVendor resetState.csrs r.csrs := by
  refine ⟨⟨Or.inl (by decide), by decide⟩, by decide, _, _,
    executes_presenting (r := resetState) readVendor rfl, by decide, by decide, ?_⟩
  intro h
  exact absurd (h.reads ⟨Or.inl (by decide), by decide⟩ CSRAddr.mstatus (by decide)) (by decide)

end CsrTransaction

/-! ## The instruction in EXU -/

/-- EXU presents the system instruction it holds, as `CsrTransaction.Executes` asks. -/
theorem EXU.presents_csr {r : EXU.Regs} {i : EXU.In} (h : EXU.Occupied r i.valid i.dinst)
    (hd : Decoded i.dinst) (hv : i.valid = true) (hsys : EXU.isTypSys i.dinst = true)
    (hzero : i.dinst.code.extractLsb' 15 5 = 0#5 → i.dinst.info.reg1 = 0#32) :
    CsrTransaction.Presents
      ⟨i.dinst.code, i.dinst.pc, i.dinst.info.reg1, i.dinst.info.staticNextPCOrCSRTarget, hzero⟩
      r.csr (EXU.csrIn r i) := by
  refine ⟨hv, hsys, hd.trap_eq.1, hd.trap_eq.2, rfl, rfl, rfl, rfl, ?_⟩
  intro hfire
  have hout : EXU.outFire r i = true := hfire
  have hready : i.outReady = true := (Bool.and_eq_true_iff.mp hout).2
  have hin : EXU.inFire r i = true := (h.outFire_eq_inFire hready).symm.trans hout
  rw [← EXU.exuResultValid_of_sys hd hsys]
  exact h.exuResultValid_of_inFire hd hin

end Core
end Jyd
