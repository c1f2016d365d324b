import Jyd.Core.BitManip
import Jyd.Hdl.FunctionalUnit
import Jyd.Isa.Arithmetic

/-!
# BitManipulation — the iterative unit computes the RISC-V bit manipulations

`Datapath` says what the working registers hold after `n` iterations, one case for each
operation.  The carry-less products advance by one or two multiplier bits and stop when
none is left; all other operations run through 32 iterations.
-/

namespace Jyd
namespace Core
namespace BExtensionUnit

open Hdl Isa

/-- The wires that drive the unit in one cycle. -/
structure In where
  bits : BExtensionInput
  inValid : Bool
  outReady : Bool
  deriving DecidableEq, Repr

def machine : Machine In Regs where
  init := fun r => r.state = .idle
  next := fun i r => next r i.inValid i.bits i.outReady

def ports : UnitPorts In Regs BExtensionInput Word where
  inValid := In.inValid
  inBits := In.bits
  inReady := inReady
  outValid := outValid
  outBits := outBits
  outReady := In.outReady

/-! ## Operations -/

/-- The operation that serves an instruction, if this unit does. -/
def operation : BOp → Option BExtensionOp
  | .clz => some .clz
  | .ctz => some .ctz
  | .cpop => some .cpop
  | .clmul => some .clmul
  | .clmulh => some .clmulh
  | .orcB => some .orcB
  | .xperm4 => some .xperm4
  | .ror => some .ror
  | .rori => some .ror
  | .pack => some .pack
  | _ => none

/-- The request carries the fields of the instruction. -/
structure Asks (q : BExtensionInput) (e : Encoding) : Prop where
  isImm : q.isImm = e.immediate
  func3t : q.func3t = e.func3
  func7t : ∀ f ∈ e.func7, q.func7t = f
  immLow5 : ∀ s ∈ e.rs2, immLow5 q = s

/-- `w` is the result that RISC-V defines for the instruction that `q` asks for. -/
def Answers (q : BExtensionInput) (w : Word) : Prop :=
  ∀ op : BOp, (operation op).isSome → Asks q op.encoding → w = op.result q.src1 q.src2

/-- What an operation is to compute. -/
def answer (op : BExtensionOp) (a b : Word) : Word :=
  match op with
  | .clz => BOp.clz.result a b
  | .ctz => BOp.ctz.result a b
  | .cpop => BOp.cpop.result a b
  | .clmul => BOp.clmul.result a b
  | .clmulh => BOp.clmulh.result a b
  | .orcB => BOp.orcB.result a b
  | .xperm4 => BOp.xperm4.result a b
  | .ror => BOp.ror.result a b
  | .pack => BOp.pack.result a b

theorem decodedOp_eq {q : BExtensionInput} (op : BOp) {e : BExtensionOp}
    (hop : operation op = some e) (h : Asks q op.encoding) : decodedOp q = e := by
  rcases h with ⟨himm, hfunc3, hfunc7, hlow⟩
  cases op <;> simp [operation] at hop <;> subst hop <;>
    simp [BOp.encoding, Encoding.unary, Encoding.reg, Encoding.shift] at himm hfunc3 hfunc7 hlow <;>
    simp [decodedOp, isCount, isClmul, isClmulh, isOrcB, isXperm4, isRor, isRori, isPack, himm,
      hfunc3, hfunc7, hlow]

theorem answers_answer (q : BExtensionInput) : Answers q (answer (decodedOp q) q.src1 q.src2) := by
  intro op hop hasks
  obtain ⟨e, he⟩ := Option.isSome_iff_exists.mp hop
  rw [decodedOp_eq _ he hasks]
  cases op <;> simp [operation] at he <;> subst he <;> rfl

/-! ## Counting zeros -/

theorem clzAuxRec_of_getLsbD {w m : ℕ} {x : BitVec w} (h : x.getLsbD m = true) :
    x.clzAuxRec m = BitVec.ofNat w (w - 1 - m) := by
  cases m with
  | zero => simp [BitVec.clzAuxRec_zero, h]
  | succ m => simp [BitVec.clzAuxRec_succ, h]

/-- The number of leading zeros is the place of the first one. -/
theorem clz_eq {x : Word} {n : ℕ} (hzero : ∀ j < n, x.getMsbD j = false)
    (hone : x.getMsbD n = true) : x.clz = BitVec.ofNat 32 n := by
  rcases (by simpa [BitVec.getMsbD] using hone : n < 32 ∧ x.getLsbD (31 - n) = true) with
    ⟨hn, hbit⟩
  have habove : ∀ i, 31 - n < i → x.getLsbD i = false := by
    intro i hi
    by_cases hlt : i < 32
    · have hj := hzero (31 - i) (by omega)
      have hlt' : 31 - i < 32 := by omega
      have hindex : 31 - (31 - i) = i := by omega
      simpa [BitVec.getMsbD, hlt', hindex] using hj
    · exact BitVec.getLsbD_of_ge x i (by omega)
  calc x.clz = x.clzAuxRec (31 - n + n) := by rw [Nat.sub_add_cancel (by omega)]; rfl
    _ = x.clzAuxRec (31 - n) := (BitVec.clzAuxRec_eq_clzAuxRec_of_getLsbD_false habove).symm
    _ = BitVec.ofNat 32 (32 - 1 - (31 - n)) := clzAuxRec_of_getLsbD hbit
    _ = BitVec.ofNat 32 n := by congr 1; omega

theorem clz_of_all_zero {x : Word} (hzero : ∀ j < 32, x.getMsbD j = false) :
    x.clz = BitVec.ofNat 32 32 := by
  have hx : x = 0#32 := by
    apply BitVec.eq_of_getMsbD_eq
    intro j hj
    simpa using hzero j hj
  exact BitVec.clz_eq_iff_eq_zero.mpr hx

/-- The first `n` bits of `x` from the top are looked at. -/
def Counting (x : Word) (n : ℕ) (found : Bool) (count : BitVec 6) : Prop :=
  if found then count.setWidth 32 = x.clz
  else (∀ j < n, x.getMsbD j = false) ∧ count.toNat = n

theorem counting_next {x : Word} {n : ℕ} {found : Bool} {count : BitVec 6}
    (h : Counting x n found count) (hn : n < 32) :
    Counting x (n + 1) (if !found && x.getMsbD n then true else found)
      (if !found && !x.getMsbD n then count + 1 else count) := by
  cases found with
  | true => simpa [Counting] using h
  | false =>
    rcases (by simpa [Counting] using h : (∀ j < n, x.getMsbD j = false) ∧ count.toNat = n) with
      ⟨hzero, hcount⟩
    cases hbit : x.getMsbD n with
    | true =>
      -- the first one is found, and the count stays from here on
      have hclz : count.setWidth 32 = x.clz := by
        rw [clz_eq hzero hbit]
        apply BitVec.eq_of_toNat_eq
        simp only [BitVec.toNat_setWidth, BitVec.toNat_ofNat, hcount]
      simpa [Counting] using hclz
    | false =>
      have hnext : ∀ j < n + 1, x.getMsbD j = false := by
        intro j hj
        rcases Nat.lt_succ_iff_lt_or_eq.mp hj with hlt | rfl
        · exact hzero j hlt
        · exact hbit
      have hsucc : (count + 1).toNat = n + 1 := by
        have hone : (1 : BitVec 6).toNat = 1 := rfl
        rw [BitVec.toNat_add, hcount, hone]
        exact Nat.mod_eq_of_lt (by omega)
      have hcounting : (∀ j < n + 1, x.getMsbD j = false) ∧ (count + 1).toNat = n + 1 :=
        ⟨hnext, hsucc⟩
      simpa [Counting] using hcounting

theorem counting_result {x : Word} {found : Bool} {count : BitVec 6}
    (h : Counting x 32 found count) : count.setWidth 32 = x.clz := by
  cases found with
  | true => simpa [Counting] using h
  | false =>
    rcases (by simpa [Counting] using h : (∀ j < 32, x.getMsbD j = false) ∧ count.toNat = 32) with
      ⟨hzero, hcount⟩
    rw [clz_of_all_zero hzero]
    apply BitVec.eq_of_toNat_eq
    simp only [BitVec.toNat_setWidth, BitVec.toNat_ofNat, hcount]

/-! ## The working registers -/

/-- Byte `k` of the result of `orc.b`. -/
def orcByte (a : Word) (k : ℕ) : BitVec 8 := fill 8 (byteOf a k != 0#8)

/-- Nibble `k` of the result of `xperm4`. -/
def permNibble (a b : Word) (k : ℕ) : BitVec 4 :=
  if (group 4 b k).toNat < 8 then group 4 a (group 4 b k).toNat else 0

/-- The registers of the carry-less product. -/
def loop (r : Regs) : CarryLess.State 64 32 := ⟨r.workA, r.workB, r.accum⟩

/-- What the working registers hold after `n` iterations on the operands `a` and `b`. -/
def Datapath (a b : Word) (n : ℕ) (r : Regs) : BExtensionOp → Prop
  | .clz => r.workA = a.setWidth 64 <<< n ∧ Counting a n r.found r.count
  | .ctz => r.workA = a.setWidth 64 >>> n ∧ Counting a.reverse n r.found r.count
  | .cpop => r.workA = a.setWidth 64 >>> n ∧ r.count = BitVec.ofNat 6 (a.cpopNatRec n 0)
  | .clmul | .clmulh => ∃ m, n ≤ m ∧ CarryLess.Holds (a.setWidth 64) b m (loop r)
  | .orcB => r.workA = a.setWidth 64 >>> (8 * min n 4) ∧ Filled 4 (orcByte a) (min n 4) r.accum
  | .xperm4 =>
    r.sourceA = a ∧ r.workB = b >>> (4 * min n 8) ∧ Filled 8 (permNibble a b) (min n 8) r.accum
  | .ror =>
    r.workA = (a.rotateRight (min n (index b))).setWidth 64 ∧
      r.rorRemain.toNat = index b - min n (index b)
  | .pack =>
    r.workA = a.setWidth 64 ∧ r.workB = b ∧
      (n ≠ 0 → r.accum = (b.extractLsb' 0 16 ++ a.extractLsb' 0 16).setWidth 64)

/-- Both halves of a carry-less product are taken from one loop. -/
theorem datapath_clmul_iff {a b : Word} {n : ℕ} {r : Regs} {op : BExtensionOp}
    (hop : isClmulOp op = true) :
    Datapath a b n r op ↔ ∃ m, n ≤ m ∧ CarryLess.Holds (a.setWidth 64) b m (loop r) := by
  have hcases : op = .clmul ∨ op = .clmulh := by simpa [isClmulOp] using hop
  rcases hcases with rfl | rfl <;> exact Iff.rfl

section Step

variable {a b : Word} {n : ℕ} {r : Regs}

theorem datapath_clz (hop : r.opReg = .clz) (h : Datapath a b n r .clz) (hn : n < 32) :
    Datapath a b (n + 1) (iterate r) .clz := by
  rcases h with ⟨hwork, hcount⟩
  have hbit : r.workA.getLsbD 31 = a.getMsbD n := by
    have hle : ¬ 31 < n := by omega
    simp [hwork, BitVec.getMsbD, hle, hn]
  have hnext := counting_next hcount hn
  rw [← hbit] at hnext
  refine ⟨?_, ?_⟩
  · simp only [iterate, hop]
    rw [hwork, BitVec.shiftLeft_add]
  · simpa only [iterate, hop] using hnext

theorem datapath_ctz (hop : r.opReg = .ctz) (h : Datapath a b n r .ctz) (hn : n < 32) :
    Datapath a b (n + 1) (iterate r) .ctz := by
  rcases h with ⟨hwork, hcount⟩
  have hbit : r.workA.getLsbD 0 = a.reverse.getMsbD n := by
    have hlt : n < 64 := by omega
    simp [hwork, hlt, BitVec.getMsbD_reverse]
  have hnext := counting_next hcount hn
  rw [← hbit] at hnext
  refine ⟨?_, ?_⟩
  · simp only [iterate, hop]
    rw [hwork, BitVec.shiftRight_add]
  · simpa only [iterate, hop] using hnext

theorem datapath_cpop (hop : r.opReg = .cpop) (h : Datapath a b n r .cpop) (hn : n < 32) :
    Datapath a b (n + 1) (iterate r) .cpop := by
  rcases h with ⟨hwork, hcount⟩
  refine ⟨?_, ?_⟩
  · simp only [iterate, hop]
    rw [hwork, BitVec.shiftRight_add]
  · have hbit : (r.workA.extractLsb' 0 1).setWidth 6 = BitVec.ofNat 6 (a.getLsbD n).toNat := by
      have hlow : (r.workA.extractLsb' 0 1) = BitVec.ofBool (a.getLsbD n) := by
        apply BitVec.eq_of_getLsbD_eq
        intro j hj
        have hzero : j = 0 := by omega
        have hlt : n < 64 := by omega
        subst hzero
        simp [hwork, hlt]
      rw [hlow]
      cases a.getLsbD n <;> rfl
    simp only [iterate, hop]
    rw [hcount, hbit, BitVec.cpopNatRec_succ, Nat.zero_add,
      BitVec.cpopNatRec_eq (a.getLsbD n).toNat, BitVec.ofNat_add]

theorem loop_iterate (hop : isClmulOp r.opReg = true) :
    loop (iterate r) = CarryLess.step (loop r) := by
  have hcases : r.opReg = .clmul ∨ r.opReg = .clmulh := by simpa [isClmulOp] using hop
  -- a pair of zeros is passed over without looking at the low bit alone
  have hlow : (r.workB.extractLsb' 0 2 == 0#2) = true → r.workB.getLsbD 0 = false := by
    intro hskip
    have hbit := congrArg (fun x => x.getLsbD 0) (beq_iff_eq.mp hskip)
    simpa using hbit
  by_cases hskip : (r.workB.extractLsb' 0 2 == 0#2) = true
  · have hbit := hlow hskip
    rcases hcases with hop | hop <;>
      simp only [loop, iterate, hop, CarryLess.step, CarryLess.consumed, hskip, hbit] <;> rfl
  · rcases hcases with hop | hop <;>
      simp only [loop, iterate, hop, CarryLess.step, CarryLess.consumed, hskip] <;> rfl

theorem datapath_clmul (hop : isClmulOp r.opReg = true) (h : Datapath a b n r r.opReg) :
    Datapath a b (n + 1) (iterate r) r.opReg := by
  rcases (datapath_clmul_iff hop).mp h with ⟨m, hm, hloop⟩
  -- one iteration consumes a multiplier bit, or two if both are zero
  have hpos : 1 ≤ CarryLess.consumed (loop r) := CarryLess.consumed_pos
  refine (datapath_clmul_iff hop).mpr ⟨m + CarryLess.consumed (loop r), by omega, ?_⟩
  rw [loop_iterate hop]
  exact hloop.step

theorem datapath_orcB (hop : r.opReg = .orcB) (h : Datapath a b n r .orcB)
    (hiter : r.iteration.toNat = n) : Datapath a b (n + 1) (iterate r) .orcB := by
  rcases h with ⟨hwork, hfilled⟩
  have hiff : r.iteration < 4#5 ↔ n < 4 := by
    rw [BitVec.lt_def, hiter]
    rfl
  by_cases hn : n < 4
  · have hmin : min n 4 = n := by omega
    have hmin' : min (n + 1) 4 = n + 1 := by omega
    rw [hmin] at hwork hfilled
    have hbyte : r.workA.extractLsb' 0 8 = byteOf a n := by
      apply BitVec.eq_of_getLsbD_eq
      intro j hj
      have hlt : 8 * n + j < 64 := by omega
      simp only [hwork, BitVec.getLsbD_extractLsb', BitVec.getLsbD_ushiftRight,
        BitVec.getLsbD_setWidth, getLsbD_byteOf, Nat.zero_add, hj, hlt, decide_true, Bool.true_and]
    refine ⟨?_, ?_⟩
    · simp only [iterate, hop, hiff.mpr hn, if_true, hmin']
      rw [hwork, ← BitVec.shiftRight_add]
      rfl
    · simp only [iterate, hop, hiff.mpr hn, if_true, hmin', hbyte]
      exact hfilled.shiftIn (by decide) rfl hn
  · -- all four bytes are in place; the remaining iterations do nothing
    have hkeep : iterate r = r := by simp [iterate, hop, hiff, hn]
    have hmin : min (n + 1) 4 = min n 4 := by omega
    rw [hkeep]
    simpa only [Datapath, hmin] using ⟨hwork, hfilled⟩

theorem datapath_xperm4 (hop : r.opReg = .xperm4) (h : Datapath a b n r .xperm4)
    (hiter : r.iteration.toNat = n) : Datapath a b (n + 1) (iterate r) .xperm4 := by
  rcases h with ⟨hsource, hwork, hfilled⟩
  have hiff : r.iteration < 8#5 ↔ n < 8 := by
    rw [BitVec.lt_def, hiter]
    rfl
  by_cases hn : n < 8
  · have hmin : min n 8 = n := by omega
    have hmin' : min (n + 1) 8 = n + 1 := by omega
    rw [hmin] at hwork hfilled
    have hindex : r.workB.extractLsb' 0 4 = group 4 b n := by
      apply BitVec.eq_of_getLsbD_eq
      intro j hj
      simp only [hwork, BitVec.getLsbD_extractLsb', BitVec.getLsbD_ushiftRight, getLsbD_group,
        Nat.zero_add, hj, decide_true, Bool.true_and]
    have hnibble : (if (r.workB.extractLsb' 0 4).toNat < 8 then
        r.sourceA.extractLsb' (4 * (r.workB.extractLsb' 0 4).toNat) 4 else 0#4) =
          permNibble a b n := by
      rw [hindex, hsource]
      rfl
    refine ⟨?_, ?_, ?_⟩
    · simp only [iterate, hop, hiff.mpr hn, if_true]
      exact hsource
    · simp only [iterate, hop, hiff.mpr hn, if_true, hmin']
      rw [hwork, ← BitVec.shiftRight_add]
      rfl
    · simp only [iterate, hop, hiff.mpr hn, if_true, hmin', hnibble]
      exact hfilled.shiftIn (by decide) rfl hn
  · have hkeep : iterate r = r := by simp [iterate, hop, hiff, hn]
    have hmin : min (n + 1) 8 = min n 8 := by omega
    rw [hkeep]
    simpa only [Datapath, hmin] using ⟨hsource, hwork, hfilled⟩

theorem rotateRight_succ {m : ℕ} (hm : m < 31) :
    ((a.rotateRight m).extractLsb' 0 1 ++ (a.rotateRight m).extractLsb' 1 31 : Word) =
      a.rotateRight (m + 1) := by
  apply BitVec.eq_of_getLsbD_eq
  intro j hj
  simp only [BitVec.getLsbD_append, BitVec.getLsbD_extractLsb', BitVec.getLsbD_rotateRight]
  grind

theorem datapath_ror (hop : r.opReg = .ror) (h : Datapath a b n r .ror) :
    Datapath a b (n + 1) (iterate r) .ror := by
  rcases h with ⟨hwork, hremain⟩
  have hindex : index b < 32 := Nat.mod_lt _ (by decide)
  have hiff : r.rorRemain = 0#5 ↔ index b ≤ n := by
    rw [← BitVec.toNat_inj, hremain]
    simp only [BitVec.toNat_ofNat, Nat.zero_mod]
    omega
  by_cases hn : index b ≤ n
  · -- the rotation is complete
    have hkeep : iterate r = r := by simp [iterate, hop, hiff.mpr hn]
    have hmin : min (n + 1) (index b) = min n (index b) := by omega
    rw [hkeep]
    simpa only [Datapath, hmin] using ⟨hwork, hremain⟩
  · have hgo : (r.rorRemain != 0#5) = true := by simpa using hiff.not.mpr hn
    have hmin : min n (index b) = n := by omega
    have hmin' : min (n + 1) (index b) = n + 1 := by omega
    rw [hmin] at hwork hremain
    refine ⟨?_, ?_⟩
    · simp only [iterate, hop, hgo, if_true, hmin']
      rw [← rotateRight_succ (by omega), hwork]
      rfl
    · simp only [iterate, hop, hgo, if_true, hmin']
      have hone : (1 : BitVec 5).toNat = 1 := rfl
      rw [BitVec.toNat_sub, hremain, hone]
      omega

theorem datapath_pack (hop : r.opReg = .pack) (h : Datapath a b n r .pack) :
    Datapath a b (n + 1) (iterate r) .pack := by
  rcases h with ⟨hworkA, hworkB, _⟩
  refine ⟨?_, ?_, fun _ => ?_⟩
  · simpa only [iterate, hop] using hworkA
  · simpa only [iterate, hop] using hworkB
  · simp only [iterate, hop]
    rw [hworkA, hworkB]
    rfl

end Step

/-- One iteration of the selected operation. -/
theorem datapath_iterate {a b : Word} {n : ℕ} {r : Regs} (h : Datapath a b n r r.opReg)
    (hiter : r.iteration.toNat = n) (hn : n < 32) : Datapath a b (n + 1) (iterate r) r.opReg := by
  have hclmul := fun hop => datapath_clmul (n := n) hop h
  cases hop : r.opReg with
  | clz => exact datapath_clz hop (hop ▸ h) hn
  | ctz => exact datapath_ctz hop (hop ▸ h) hn
  | cpop => exact datapath_cpop hop (hop ▸ h) hn
  | clmul =>
    rw [hop] at hclmul
    exact hclmul rfl
  | clmulh =>
    rw [hop] at hclmul
    exact hclmul rfl
  | orcB => exact datapath_orcB hop (hop ▸ h) hiter
  | xperm4 => exact datapath_xperm4 hop (hop ▸ h) hiter
  | ror => exact datapath_ror hop (hop ▸ h)
  | pack => exact datapath_pack hop (hop ▸ h)

/-- An iteration touches the working registers only. -/
theorem iterate_keeps (r : Regs) :
    (iterate r).opReg = r.opReg ∧ (iterate r).crcClmulhFast = r.crcClmulhFast ∧
      (iterate r).sourceA = r.sourceA ∧ (iterate r).state = r.state := by
  unfold iterate
  repeat' split
  all_goals exact ⟨rfl, rfl, rfl, rfl⟩

theorem datapath_iteration {a b : Word} {n : ℕ} {r : Regs} {op : BExtensionOp} (i : BitVec 5) :
    Datapath a b n { r with iteration := i } op ↔ Datapath a b n r op := by
  cases op <;> rfl

/-! ## Results -/

section Result

variable {a b : Word} {r : Regs}

/-- The product is complete when the multiplier is exhausted, however it was scanned. -/
theorem finalResult_of_exhausted (hop : isClmulOp r.opReg = true) {n : ℕ}
    (h : Datapath a b n r r.opReg) (hzero : r.workB = 0#32) :
    finalResult r = answer r.opReg a b := by
  rcases (datapath_clmul_iff hop).mp h with ⟨m, _, hloop⟩
  have hproduct : r.accum = BOp.carryLess a b := hloop.sum_eq_product hzero
  have hcases : r.opReg = .clmul ∨ r.opReg = .clmulh := by simpa [isClmulOp] using hop
  rcases hcases with hop | hop <;> simp only [finalResult, hop, answer, hproduct] <;> rfl

theorem finalResult_of_clmul (hop : isClmulOp r.opReg = true) (h : Datapath a b 32 r r.opReg) :
    finalResult r = answer r.opReg a b := by
  rcases (datapath_clmul_iff hop).mp h with ⟨m, hm, hloop⟩
  refine finalResult_of_exhausted hop h ?_
  -- 32 bits have been shifted out of the multiplier
  rw [show r.workB = b >>> m from hloop.multiplier]
  exact BitVec.ushiftRight_eq_zero hm

theorem result_orcB (h : Filled 4 (orcByte a) 4 r.accum) :
    r.accum.extractLsb' 0 32 = BOp.orcB.result a b := by
  have hresult : BOp.orcB.result a b =
      ofBytes fun k => if byteOf a k = 0 then 0 else BitVec.allOnes 8 := rfl
  rw [hresult]
  apply eq_of_group (w := 8) (m := 4) (by decide)
  intro k hk
  have hfilled : group 8 r.accum (4 - 4 + k) = orcByte a k := h k hk
  rw [Nat.sub_self, Nat.zero_add] at hfilled
  rw [group_extractLsb' _ (by omega), hfilled, group_byte, byteOf_ofBytes _ hk, orcByte]
  by_cases hz : byteOf a k = 0#8
  · simp [hz, fill]
  · simp [hz, fill]

theorem result_xperm4 (h : Filled 8 (permNibble a b) 8 r.accum) :
    r.accum.extractLsb' 0 32 = BOp.xperm4.result a b := by
  have hresult : BOp.xperm4.result a b = ofNibbles (permNibble a b) := rfl
  rw [hresult]
  apply eq_of_group (w := 4) (m := 8) (by decide)
  intro k hk
  have hfilled : group 4 r.accum (8 - 8 + k) = permNibble a b k := h k hk
  rw [Nat.sub_self, Nat.zero_add] at hfilled
  rw [group_extractLsb' _ (by omega), hfilled, group_ofNibbles _ hk]

theorem finalResult_eq (h : Datapath a b 32 r r.opReg) : finalResult r = answer r.opReg a b := by
  have hindex : min 32 (index b) = index b := by
    have hlt : index b < 32 := Nat.mod_lt _ (by decide)
    omega
  cases hop : r.opReg with
  | clz =>
    rw [hop] at h
    simp only [finalResult, hop, answer]
    exact counting_result h.2
  | ctz =>
    rw [hop] at h
    simp only [finalResult, hop, answer]
    exact counting_result h.2
  | cpop =>
    rw [hop] at h
    simp only [finalResult, hop, answer]
    have hle : a.cpopNatRec 32 0 ≤ 32 := BitVec.cpopNatRec_zero_le a 32
    apply BitVec.eq_of_toNat_eq
    show (r.count.setWidth 32).toNat = a.cpop.toNat
    rw [BitVec.toNat_cpop, BitVec.toNat_setWidth, h.2, BitVec.toNat_ofNat]
    omega
  | clmul =>
    rw [← hop]
    exact finalResult_of_clmul (by rw [hop]; rfl) h
  | clmulh =>
    rw [← hop]
    exact finalResult_of_clmul (by rw [hop]; rfl) h
  | orcB =>
    rw [hop] at h
    simp only [finalResult, hop, answer]
    exact result_orcB h.2
  | xperm4 =>
    rw [hop] at h
    simp only [finalResult, hop, answer]
    exact result_xperm4 h.2.2
  | ror =>
    rw [hop] at h
    have hwork := h.1
    rw [hindex] at hwork
    simp only [finalResult, hop, answer, hwork]
    exact extractLsb'_setWidth _ (by decide)
  | pack =>
    rw [hop] at h
    simp only [finalResult, hop, answer, h.2.2 (by decide)]
    exact extractLsb'_setWidth _ (by decide)

end Result

/-! ## The product by `0x00014002` -/

theorem carryLess_crc (a : Word) :
    BOp.carryLess a 0x00014002#32 =
      a.setWidth 64 <<< 1 ^^^ a.setWidth 64 <<< 14 ^^^ a.setWidth 64 <<< 16 := by
  simp [BOp.carryLess, CarryLess.product, CarryLess.partialProduct]

theorem crcShortcut_eq (a : Word) :
    (crcShortcut a).setWidth 32 = BOp.clmulh.result a 0x00014002#32 := by
  have hresult : BOp.clmulh.result a 0x00014002#32 =
      (BOp.carryLess a 0x00014002#32).extractLsb' 32 32 := rfl
  rw [hresult, carryLess_crc]
  apply BitVec.eq_of_getLsbD_eq
  intro j hj
  simp only [crcShortcut, BitVec.getLsbD_setWidth, BitVec.getLsbD_append, BitVec.getLsbD_extractLsb',
    BitVec.getLsbD_xor, BitVec.getLsbD_shiftLeft]
  interval_cases j <;> simp

/-! ## The unit -/

def isCrcClmulh (q : BExtensionInput) : Bool := isClmulh q && q.src2 == 0x00014002#32

/-- The cycles until the result is offered, the current one included. -/
def remaining (r : Regs) : ℕ :=
  if r.crcClmulhFast then 1
  else if isClmulOp r.opReg then CarryLess.rounds (32 - r.iteration.toNat) (loop r)
  else 32 - r.iteration.toNat

/-- The cycles that a request keeps the unit busy. -/
def latency (q : BExtensionInput) : ℕ :=
  if isCrcClmulh q then 1
  else if isClmulOp (decodedOp q) then CarryLess.rounds 32 ⟨q.src1.setWidth 64, q.src2, 0⟩
  else 32

theorem latency_le (q : BExtensionInput) : latency q ≤ 32 := by
  unfold latency
  split
  · decide
  · split
    · exact CarryLess.rounds_le 32 _
    · exact Nat.le_refl 32

/-- What the registers hold while the unit works on `q`, by the cycles still needed. -/
inductive Working (q : BExtensionInput) : ℕ → Regs → Prop
  | busy {r : Regs} {k : ℕ} (hstate : r.state = .busy) (hop : r.opReg = decodedOp q)
      (hfast : r.crcClmulhFast = isCrcClmulh q) (hsource : r.sourceA = q.src1)
      (hdata : Datapath q.src1 q.src2 r.iteration.toNat r r.opReg) (hk : remaining r = k) :
      Working q k r
  | done {r : Regs} (hstate : r.state = .done)
      (hresult : outBits r = answer (decodedOp q) q.src1 q.src2) : Working q 0 r

section Unit

variable {q k : BExtensionInput} {r : Regs} {inValid outReady : Bool}

theorem working_start (h : r.state = .idle) : Working q (latency q) (next r true q outReady) := by
  have hdata : ∀ op, Datapath q.src1 q.src2 0 (next r true q outReady) op := by
    intro op
    simp only [next, h, if_true]
    cases op with
    | clz => exact ⟨by simp, fun _ hj => absurd hj (Nat.not_lt_zero _), rfl⟩
    | ctz => exact ⟨by simp, fun _ hj => absurd hj (Nat.not_lt_zero _), rfl⟩
    | cpop => exact ⟨by simp, rfl⟩
    | clmul => exact ⟨0, Nat.le_refl 0, CarryLess.holds_zero⟩
    | clmulh => exact ⟨0, Nat.le_refl 0, CarryLess.holds_zero⟩
    | orcB => exact ⟨by simp, fun _ hj => absurd hj (Nat.not_lt_zero _)⟩
    | xperm4 => exact ⟨rfl, by simp, fun _ hj => absurd hj (Nat.not_lt_zero _)⟩
    | ror =>
      have hzero : q.src1.rotateRight 0 = q.src1 := by
        apply BitVec.eq_of_getLsbD_eq
        intro j hj
        simp [hj]
      exact ⟨by simp [hzero], by simp [index]⟩
    | pack => exact ⟨rfl, rfl, fun hn => absurd rfl hn⟩
  refine .busy ?_ ?_ ?_ ?_ ?_ ?_
  · simp [next, h]
  · simp [next, h]
  · simp [next, h, isCrcClmulh]
  · simp [next, h]
  · have hiter : (next r true q outReady).iteration.toNat = 0 := by simp [next, h]
    rw [hiter]
    exact hdata _
  · simp [next, h, remaining, latency, isCrcClmulh, loop]

theorem working_fast (hstate : r.state = .busy) (hfast : r.crcClmulhFast = true)
    (hcrc : isCrcClmulh q = true) (hsource : r.sourceA = q.src1) :
    Working q 0 (next r inValid k outReady) := by
  rcases (by simpa [isCrcClmulh] using hcrc : isClmulh q = true ∧ q.src2 = 0x00014002#32) with
    ⟨hclmulh, hsrc2⟩
  have hdecoded : decodedOp q = .clmulh := by
    refine decodedOp_eq .clmulh rfl ?_
    rcases (by simpa [isClmulh, and_assoc] using hclmulh :
      q.isImm = false ∧ q.func3t = 0b011#3 ∧ q.func7t = 0b0000101#7) with ⟨himm, hfunc3, hfunc7⟩
    exact ⟨himm, hfunc3, by simpa [BOp.encoding, Encoding.reg] using hfunc7,
      by simp [BOp.encoding, Encoding.reg]⟩
  have hnext : next r inValid k outReady =
      { iterate r with crcClmulhResult := crcShortcut q.src1, state := .done } := by
    simp [next, hstate, hfast, hsource]
  rw [hnext]
  refine .done rfl ?_
  have hkeeps : (iterate r).crcClmulhFast = true := (iterate_keeps r).2.1.trans hfast
  simp only [outBits, hkeeps, if_true]
  rw [crcShortcut_eq, hdecoded, hsrc2]
  rfl

/-- A carry-less product ends early, every other operation after 32 iterations. -/
theorem working_finish (hstate : r.state = .busy) (hop : r.opReg = decodedOp q)
    (hfast : r.crcClmulhFast = false)
    (hdata : Datapath q.src1 q.src2 r.iteration.toNat r r.opReg)
    (hlast : r.iteration = 31#5 ∨ isClmulOp r.opReg = true ∧ (iterate r).workB = 0#32) :
    Working q 0 (next r inValid k outReady) := by
  have hnext : next r inValid k outReady =
      { iterate r with resultReg := finalResult (iterate r), state := .done } := by
    have hcond : (r.iteration == 31#5 || (isClmulOp r.opReg && (iterate r).workB == 0#32)) = true :=
      by simpa using hlast
    simp only [next, hstate, hfast, hcond, if_true, Bool.false_eq_true, if_false]
  have hiterated := datapath_iterate hdata rfl r.iteration.isLt
  have hkeeps := iterate_keeps r
  rw [← hkeeps.1] at hiterated
  have hfinal : finalResult (iterate r) = answer (iterate r).opReg q.src1 q.src2 := by
    rcases hlast with hlast | ⟨hclmul, hzero⟩
    · rw [hlast] at hiterated
      exact finalResult_eq hiterated
    · exact finalResult_of_exhausted (hkeeps.1 ▸ hclmul) hiterated hzero
  rw [hnext]
  refine .done rfl ?_
  have hslow : (iterate r).crcClmulhFast = false := hkeeps.2.1.trans hfast
  simp only [outBits, hslow, Bool.false_eq_true, if_false]
  rw [hfinal, hkeeps.1, hop]

theorem working_iterate (hstate : r.state = .busy) (hop : r.opReg = decodedOp q)
    (hfast : r.crcClmulhFast = false) (hcrc : isCrcClmulh q = false) (hsource : r.sourceA = q.src1)
    (hdata : Datapath q.src1 q.src2 r.iteration.toNat r r.opReg) (hlast : r.iteration ≠ 31#5)
    (hopen : ¬ (isClmulOp r.opReg = true ∧ (iterate r).workB = 0#32)) {n : ℕ}
    (hn : remaining r = n + 1) : Working q n (next r inValid k outReady) := by
  have hcond : (r.iteration == 31#5 || (isClmulOp r.opReg && (iterate r).workB == 0#32)) = false := by
    simpa [hlast] using hopen
  have hnext : next r inValid k outReady = { iterate r with iteration := r.iteration + 1 } := by
    simp only [next, hstate, hfast, hcond, Bool.false_eq_true, if_false]
  have hkeeps := iterate_keeps r
  have hlt : r.iteration.toNat < 31 := by
    have hne : r.iteration.toNat ≠ 31 := fun h => hlast (BitVec.eq_of_toNat_eq h)
    omega
  have hcount : (r.iteration + 1).toNat = r.iteration.toNat + 1 := by
    have hone : (1 : BitVec 5).toNat = 1 := rfl
    rw [BitVec.toNat_add, hone]
    exact Nat.mod_eq_of_lt (by omega)
  have hleft : 32 - r.iteration.toNat = 32 - (r.iteration.toNat + 1) + 1 := by omega
  rw [hnext]
  refine .busy (hkeeps.2.2.2.trans hstate) (hkeeps.1.trans hop)
    (hkeeps.2.1.trans (hfast.trans hcrc.symm)) (hkeeps.2.2.1.trans hsource) ?_ ?_
  · show Datapath q.src1 q.src2 (r.iteration + 1).toNat _ (iterate r).opReg
    rw [datapath_iteration, hcount, hkeeps.1]
    exact datapath_iterate hdata rfl r.iteration.isLt
  · simp only [remaining, hkeeps.1, hkeeps.2.1, hfast, hcount, Bool.false_eq_true, if_false] at hn ⊢
    by_cases hclmul : isClmulOp r.opReg = true
    · have hstep : (CarryLess.step (loop r)).multiplier ≠ 0#32 := by
        rw [← loop_iterate hclmul]
        exact fun hzero => hopen ⟨hclmul, hzero⟩
      rw [if_pos hclmul, hleft, CarryLess.rounds, if_neg hstep] at hn
      rw [if_pos hclmul]
      show CarryLess.rounds (32 - (r.iteration.toNat + 1)) (loop (iterate r)) = n
      rw [loop_iterate hclmul]
      omega
    · rw [if_neg hclmul] at hn ⊢
      omega

theorem working_advance {n : ℕ} (h : Working q (n + 1) r) :
    Working q n (next r inValid k outReady) := by
  cases h with
  | busy hstate hop hfast hsource hdata hk =>
    cases hcrc : isCrcClmulh q with
    | true =>
      have hone : remaining r = 1 := by simp [remaining, hfast, hcrc]
      obtain rfl : n = 0 := by omega
      exact working_fast hstate (hfast.trans hcrc) hcrc hsource
    | false =>
      -- the last iteration is the 32nd, or the one that exhausts the multiplier
      have hslow := hfast.trans hcrc
      by_cases hlast : r.iteration = 31#5 ∨ isClmulOp r.opReg = true ∧ (iterate r).workB = 0#32
      · have hone : remaining r = 1 := by
          rcases hlast with hlast | ⟨hclmul, hzero⟩
          · have hfuel : 32 - r.iteration.toNat = 0 + 1 := by rw [hlast]; rfl
            have hrounds : CarryLess.rounds (0 + 1) (loop r) = 1 := by
              rw [CarryLess.rounds]
              split <;> rfl
            simp [remaining, hslow, hfuel, hrounds]
          · have hfuel : 32 - r.iteration.toNat = 32 - r.iteration.toNat - 1 + 1 := by
              have hlt := r.iteration.isLt
              omega
            have hstep : (CarryLess.step (loop r)).multiplier = 0#32 := by
              rw [← loop_iterate hclmul]
              exact hzero
            simp only [remaining, hslow, hclmul, if_true, Bool.false_eq_true, if_false]
            rw [hfuel, CarryLess.rounds, if_pos hstep]
        obtain rfl : n = 0 := by omega
        exact working_finish hstate hop hslow hdata hlast
      · rcases not_or.mp hlast with ⟨hmore, hopen⟩
        exact working_iterate hstate hop hslow hcrc hsource hdata hmore hopen hk

theorem remaining_pos (r : Regs) : 0 < remaining r := by
  have hlt := r.iteration.isLt
  obtain ⟨fuel, hfuel⟩ : ∃ fuel, 32 - r.iteration.toNat = fuel + 1 :=
    ⟨31 - r.iteration.toNat, by omega⟩
  rw [remaining, hfuel, CarryLess.rounds]
  repeat' split
  all_goals omega

theorem ports_inReady : ports.inReady r = true ↔ r.state = .idle := by
  simp [ports, inReady]

end Unit

theorem serial : Serial machine ports latency Answers Working where
  init := by
    intro r hinit
    exact ports_inReady.mpr hinit
  quiet := by
    intro r hready
    have hidle : r.state = .idle := ports_inReady.mp hready
    simp [ports, outValid, hidle]
  rest := by
    intro i r hready hvalid
    have hidle : r.state = .idle := ports_inReady.mp hready
    have hvalid : i.inValid = false := hvalid
    exact ports_inReady.mpr (by simp [machine, next, hidle, hvalid])
  start := by
    intro i r hready hvalid
    have hidle : r.state = .idle := ports_inReady.mp hready
    have hvalid : i.inValid = true := hvalid
    have hstart : Working i.bits (latency i.bits) (BExtensionUnit.next r true i.bits i.outReady) :=
      working_start hidle
    simpa [machine, ports, hvalid] using hstart
  busy := by
    intro q k r h
    cases h <;> simp [ports, inReady, *]
  offers := by
    intro q k r h
    cases h with
    | busy hstate hop hfast hsource hdata hk =>
      have hpos := remaining_pos r
      have hne : k ≠ 0 := by omega
      simp [ports, outValid, hstate, hne]
    | done hstate hresult => simp [ports, outValid, hstate]
  answers := by
    intro q r h
    cases h with
    | busy hstate hop hfast hsource hdata hk => exact absurd hk (remaining_pos r).ne'
    | done hstate hresult =>
      show Answers q (outBits r)
      rw [hresult]
      exact answers_answer q
  advance := fun h => working_advance h
  wait := by
    intro q i r h hwait
    cases h with
    | busy hstate hop hfast hsource hdata hk => exact absurd hk (remaining_pos r).ne'
    | done hstate hresult =>
      have hwait : i.outReady = false := hwait
      have hnext : machine.next i r = r := by simp [machine, next, hstate, hwait]
      rw [hnext]
      exact .done hstate hresult
  release := by
    intro q i r h hready
    cases h with
    | busy hstate hop hfast hsource hdata hk => exact absurd hk (remaining_pos r).ne'
    | done hstate hresult =>
      have hready : i.outReady = true := hready
      exact ports_inReady.mpr (by simp [machine, next, hstate, hready])

/-- Whatever operations are requested and however long their results have to wait, the unit
delivers the result that RISC-V defines for each, in order, and offers it after at most 32
cycles of work.  The answer does not depend on whether the loop ran over all multiplier
bits, passed over zero pairs or was replaced by the shortcut. -/
theorem bit_results_match_riscv (R : Run machine) :
    (∀ n, ∃ done pending, R.events ports.accepted n = done ++ pending ∧ pending.length ≤ 1 ∧
      List.Forall₂ Answers done (R.events ports.delivered n)) ∧
    (∀ q, latency q ≤ 32) ∧
    ∀ t q, ports.accepted (R.input t) (R.state t) = some q →
      ∀ u, t < u → (∀ v, t + 1 + latency q ≤ v → v < u → (R.input v).outReady = false) →
        (outValid (R.state u) = true ↔ t + 1 + latency q ≤ u) ∧
          (t + 1 + latency q ≤ u → Answers q (outBits (R.state u))) := by
  refine ⟨serial.served R, latency_le, ?_⟩
  intro t q haccepted u hu hwait
  exact serial.offered R haccepted hu hwait

/-- The carry-less product of all ones by eleven over and over, with the result left waiting. -/
def elevenRun : Run machine :=
  machine.runFrom
    (fun _ => ⟨⟨false, 0b001#3, 0b0000101#7, 0xffffffff#32, 0b1011#32⟩, true, false⟩)
    ⟨.idle, .clz, 0, 0, 0, 0, 0, 0, false, 0, 0, false, 0⟩ rfl

theorem bit_results_match_riscv_eleven :
    latency ⟨false, 0b001#3, 0b0000101#7, 0xffffffff#32, 0b1011#32⟩ = 4 ∧
      (outValid (elevenRun.state 9) = true ↔ 5 ≤ 9) ∧
      outBits (elevenRun.state 9) = BOp.clmul.result 0xffffffff#32 0b1011#32 := by
  have hlatency : latency ⟨false, 0b001#3, 0b0000101#7, 0xffffffff#32, 0b1011#32⟩ = 4 := by decide
  have hrun := (bit_results_match_riscv elevenRun).2.2 0
    ⟨false, 0b001#3, 0b0000101#7, 0xffffffff#32, 0b1011#32⟩ rfl 9 (by decide) (fun _ _ _ => rfl)
  rw [hlatency] at hrun
  exact ⟨hlatency, hrun.1, hrun.2 (by decide) .clmul rfl ⟨rfl, rfl, by decide, by decide⟩⟩

end BExtensionUnit
end Core
end Jyd
