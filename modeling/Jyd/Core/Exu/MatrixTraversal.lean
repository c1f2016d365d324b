import Jyd.Core.ExuRequests
import Jyd.Nemu.Xmsum

/-!
# MatrixTraversal — one matrix on the controller of the clipped sum

The controller is one element behind the loop of the reference simulator: while the
request for element `k` is out, the response of element `k - 1` waits in a register, and
a clipped sum is only taken back to zero when it is next used.  `settled` is the state of
the loop that the registers stand for, and `Phase` relates every cycle to the number of
elements already requested.
-/

namespace Jyd
namespace Core
namespace MatrixSum

open Hdl Nemu

/-! ## The registers as loop variables -/

section Registers

variable (r : Regs)

/-- The loop variables without the response that is still registered. -/
def held : ClippedSum :=
  ⟨if r.xmsumPreviousClipped then 0 else r.xmsumTmp, r.xmsumPrev, r.xmsumRet⟩

/-- The loop variables with the registered response. -/
def absorbed : ClippedSum := (held r).step r.xmsumClip r.xmsumResponseData

def settled : ClippedSum := if r.xmsumResponsePending then absorbed r else held r

theorem absorbed_eq :
    absorbed r =
      if xmsumResponseClipped r then ⟨0, r.xmsumResponseData, r.xmsumRet + 10⟩
      else ⟨xmsumResponseSum r, r.xmsumResponseData,
        r.xmsumRet + (BitVec.ofBool (r.xmsumPrev.slt r.xmsumResponseData)).setWidth 16⟩ := rfl

theorem xmsumResponseNextRet_eq : xmsumResponseNextRet r = (absorbed r).ret := by
  rw [absorbed_eq, xmsumResponseNextRet, xmsumResponseIncreased]
  cases xmsumResponseClipped r with
  | true => rfl
  | false => cases r.xmsumPrev.slt r.xmsumResponseData <;> simp

/-- The registered response is taken into the sum. -/
def accumulate (c : Regs) : Regs :=
  { c with
    xmsumTmp := xmsumResponseSum r
    xmsumPreviousClipped := xmsumResponseClipped r
    xmsumPrev := r.xmsumResponseData
    xmsumRet := xmsumResponseNextRet r
    xmsumResponsePending := false }

theorem held_accumulate (c : Regs) : held (accumulate r c) = absorbed r := by
  rw [held, accumulate, xmsumResponseNextRet_eq, absorbed_eq]
  cases xmsumResponseClipped r <;> rfl

end Registers

/-! ## Rows and columns -/

/-- The row and column counters stand at element `k` of an `n` by `n` matrix. -/
structure Cursor (n : ℕ) (r : Regs) (k : ℕ) : Prop where
  row : r.xmsumRow.toNat < n
  column : r.xmsumColumn.toNat < n
  index : r.xmsumRow.toNat * n + r.xmsumColumn.toNat = k

namespace Cursor

variable {n k : ℕ} {r : Regs}

theorem lt (h : Cursor n r k) : k < n * n := by
  have hrow : (r.xmsumRow.toNat + 1) * n ≤ n * n := Nat.mul_le_mul_right n h.row
  have hcol := h.column
  rw [← h.index]
  rw [Nat.succ_mul] at hrow
  omega

end Cursor

/-- The next counters of a 16-bit counter below the size. -/
theorem toNat_succ {n x : BitVec 16} (h : x.toNat < n.toNat) : (x + 1).toNat = x.toNat + 1 := by
  have hn := n.isLt
  have hone : (1 : BitVec 16).toNat = 1 := rfl
  rw [BitVec.toNat_add, hone, Nat.mod_eq_of_lt (by omega)]

theorem succ_eq_iff {n x : BitVec 16} (h : x.toNat < n.toNat) :
    x + 1 = n ↔ x.toNat + 1 = n.toNat := by
  rw [← toNat_succ h]
  exact ⟨congrArg BitVec.toNat, BitVec.eq_of_toNat_eq⟩

/-! ## Requests -/

/-- A read of one word. -/
def readWord (address : Word) : MemReq := ⟨address, 2, false, 0, 0⟩

/-- The reads of the first `k` words of a matrix. -/
def wordReads (base : Word) (k : ℕ) : List MemReq :=
  (List.range k).map fun i => readWord (elementAddr base i)

theorem wordReads_succ (base : Word) (k : ℕ) :
    wordReads base (k + 1) = wordReads base k ++ [readWord (elementAddr base k)] := by
  rw [wordReads, List.range_succ, List.map_append]
  rfl

/-- The request that the memory accepts in a cycle. -/
def accepted (r : Regs) (i : In) : Option MemReq :=
  if asks r && i.memReqFire then some (readWord r.xmsumAddress) else none

/-- The request that waits for its answer: the last one accepted, until a response comes. -/
def outstandingNext (accepted : Option MemReq) (answered : Bool) (g : Option MemReq) :
    Option MemReq :=
  match accepted with
  | some q => some q
  | none => if answered then none else g

/-! ## Phases -/

section Phases

variable (pmem : Pmem) (base config : Word)

def size (config : Word) : BitVec 16 := config.extractLsb' 16 16
def clip (config : Word) : Word := (config.extractLsb' 0 16).signExtend 32

/-- The loop variables of the reference after `k` words. -/
def after (k : ℕ) : ClippedSum := clippedLoop pmem base (clip config) k

/-- The parameters of the traversal. -/
structure Params (r : Regs) : Prop where
  size : r.xmsumSize = size config
  clip : r.xmsumClip = clip config

/-- The cycles of one traversal, with the outstanding request and the reads so far. -/
inductive Phase (g : Option MemReq) (log : List MemReq) (r : Regs) : Prop
  | request (k : ℕ) (state : r.xmsumState = .request) (params : Params config r)
      (cursor : Cursor (size config).toNat r k) (address : r.xmsumAddress = elementAddr base k)
      (sum : settled r = after pmem base config k) (reads : log = wordReads base k)
  | response (k : ℕ) (state : r.xmsumState = .response) (params : Params config r)
      (cursor : Cursor (size config).toNat r k) (address : r.xmsumAddress = elementAddr base k)
      (fresh : r.xmsumResponsePending = false) (sum : held r = after pmem base config k)
      (out : g = some (readWord (elementAddr base k))) (reads : log = wordReads base (k + 1))
  | finalize (state : r.xmsumState = .finalizeResult)
      (sum : absorbed r = after pmem base config ((size config).toNat * (size config).toNat))
      (reads : log = wordReads base ((size config).toNat * (size config).toNat))
  | done (state : r.xmsumState = .done)
      (result : r.xmsumResult = (matrixClippedSum pmem base config).1)
      (reads : log = wordReads base ((size config).toNat * (size config).toNat))

variable {pmem base config} {g : Option MemReq} {log : List MemReq} {r : Regs} {i : In}

theorem Phase.of_done (h : Phase pmem base config g log r) (hdone : r.xmsumState = .done) :
    r.xmsumResult = (matrixClippedSum pmem base config).1 ∧
      log = wordReads base ((size config).toNat * (size config).toNat) := by
  cases h with
  | request _ state _ _ _ _ _ => exact absurd (hdone.symm.trans state) (by decide)
  | response _ state _ _ _ _ _ _ _ => exact absurd (hdone.symm.trans state) (by decide)
  | finalize state _ _ => exact absurd (hdone.symm.trans state) (by decide)
  | done _ result reads => exact ⟨result, reads⟩

theorem accepted_of_ne (h : r.xmsumState ≠ .request) : accepted r i = none := by
  simp [accepted, asks, h]

/-! ### One lemma per phase -/

/-- The registers that say where the traversal is. -/
structure SamePlace (r r' : Regs) : Prop where
  size : r'.xmsumSize = r.xmsumSize
  clip : r'.xmsumClip = r.xmsumClip
  row : r'.xmsumRow = r.xmsumRow
  column : r'.xmsumColumn = r.xmsumColumn
  address : r'.xmsumAddress = r.xmsumAddress

theorem Params.of_same {r' : Regs} (h : Params config r) (hsame : SamePlace r r') :
    Params config r' :=
  ⟨hsame.size.trans h.size, hsame.clip.trans h.clip⟩

theorem Cursor.of_same {n k : ℕ} {r' : Regs} (h : Cursor n r k) (hsame : SamePlace r r') :
    Cursor n r' k := by
  refine ⟨?_, ?_, ?_⟩
  · exact hsame.row ▸ h.row
  · exact hsame.column ▸ h.column
  · rw [hsame.row, hsame.column]
    exact h.index

/-- A cycle in which a request is offered also takes in the registered response. -/
theorem request_next (hs : r.xmsumState = .request) :
    SamePlace r (next r i) ∧ held (next r i) = settled r ∧
      (next r i).xmsumResponsePending = false ∧
      (next r i).xmsumState = if i.memReqFire then .response else .request := by
  cases hp : r.xmsumResponsePending with
  | false =>
    cases hf : i.memReqFire with
    | false =>
      have hnext : next r i = r := by simp [next, control, hs, hf, hp]
      rw [hnext]
      exact ⟨⟨rfl, rfl, rfl, rfl, rfl⟩, by simp [settled, hp], hp, hs⟩
    | true =>
      have hnext : next r i = { r with xmsumState := .response } := by
        simp [next, control, hs, hf, hp]
      rw [hnext]
      exact ⟨⟨rfl, rfl, rfl, rfl, rfl⟩, by simp [settled, hp, held], hp, rfl⟩
  | true =>
    -- whether or not the request is taken, the sum is the one of the loop
    have hsum : ∀ c : Regs, held (accumulate r c) = settled r := by
      intro c
      rw [held_accumulate, settled, hp, if_pos rfl]
    cases hf : i.memReqFire with
    | false =>
      have hnext : next r i = accumulate r r := by
        simp [next, control, accumulate, hs, hf, hp]
      rw [hnext]
      exact ⟨⟨rfl, rfl, rfl, rfl, rfl⟩, hsum r, rfl, hs⟩
    | true =>
      have hnext : next r i = accumulate r { r with xmsumState := .response } := by
        simp [next, control, accumulate, hs, hf, hp]
      rw [hnext]
      exact ⟨⟨rfl, rfl, rfl, rfl, rfl⟩, hsum _, rfl, rfl⟩

theorem response_waits (hs : r.xmsumState = .response) (hv : i.memResp.valid = false) :
    next r i = r := by
  simp [next, control, hs, hv]

/-- The last response of the matrix. -/
theorem response_last (hs : r.xmsumState = .response) (hv : i.memResp.valid = true)
    (hcol : r.xmsumColumn + 1 = r.xmsumSize) (hrow : r.xmsumRow + 1 = r.xmsumSize) :
    next r i = { r with xmsumResponseData := i.memResp.bits, xmsumState := .finalizeResult } := by
  have hend : (r.xmsumColumn + 1 == r.xmsumSize && r.xmsumRow + 1 == r.xmsumSize) = true := by
    simpa using And.intro hcol hrow
  simp only [next, control, hs, hv, hend]
  rfl

/-- Any other response moves the traversal to the next element. -/
theorem response_moves (hs : r.xmsumState = .response) (hv : i.memResp.valid = true)
    (hmore : ¬ (r.xmsumColumn + 1 = r.xmsumSize ∧ r.xmsumRow + 1 = r.xmsumSize)) :
    next r i =
      { r with
        xmsumResponseData := i.memResp.bits
        xmsumAddress := r.xmsumAddress + 4
        xmsumRow := if r.xmsumColumn + 1 == r.xmsumSize then r.xmsumRow + 1 else r.xmsumRow
        xmsumColumn := if r.xmsumColumn + 1 == r.xmsumSize then 0 else r.xmsumColumn + 1
        xmsumResponsePending := true
        xmsumState := .request } := by
  have hno : (r.xmsumColumn + 1 == r.xmsumSize && r.xmsumRow + 1 == r.xmsumSize) = false := by
    simpa using hmore
  simp only [next, control, hs, hv, hno]
  rfl

theorem finalize_next (hs : r.xmsumState = .finalizeResult) :
    (next r i).xmsumState = .done ∧ (next r i).xmsumResult = (absorbed r).ret.signExtend 32 := by
  rw [← xmsumResponseNextRet_eq]
  simp [next, control, hs]

/-- The first cycle: an empty matrix is done at once. -/
theorem idle_next (hs : r.xmsumState = .idle) (hv : i.valid = true) (hx : i.isXmsum = true)
    (h1 : i.reg_v1 = base) (h2 : i.reg_v2 = config) :
    Phase pmem base config g [] (next r i) := by
  by_cases hn : size config = 0#16
  · have hnext : (next r i).xmsumState = .done ∧ (next r i).xmsumResult = 0 := by
      rw [size] at hn
      simp [next, control, hs, hv, hx, h2, hn]
    have hzero : (size config).toNat = 0 := by rw [hn]; rfl
    refine .done hnext.1 ?_ ?_
    · rw [hnext.2, matrixClippedSum, config_size]
      show _ = (clippedLoop _ _ _ ((size config).toNat * (size config).toNat)).ret.signExtend 32
      rw [hzero]
      rfl
    · rw [hzero]
      rfl
  -- otherwise the counters start at the first element
  · have hpos : 0 < (size config).toNat := by
      refine Nat.pos_of_ne_zero fun h0 => hn ?_
      exact BitVec.eq_of_toNat_eq h0
    have hnext : next r i =
        { r with
          xmsumAddress := base
          xmsumSize := size config
          xmsumRow := 0
          xmsumColumn := 0
          xmsumClip := clip config
          xmsumTmp := 0
          xmsumPreviousClipped := false
          xmsumPrev := 0
          xmsumRet := 0
          xmsumResponsePending := false
          xmsumState := .request } := by
      have hn' : (size config == 0#16) = false := by simpa using hn
      rw [size] at hn'
      simp only [next, control, hs, hv, hx, h1, h2, hn']
      rfl
    rw [hnext]
    exact .request 0 rfl ⟨rfl, rfl⟩ ⟨hpos, hpos, Nat.zero_mul _⟩ (elementAddr_zero base).symm rfl rfl

/-! ### One clock edge -/

/-- The counters of the next element. -/
theorem Cursor.advance {k : ℕ} (h : Cursor r.xmsumSize.toNat r k)
    (hmore : ¬ (r.xmsumColumn + 1 = r.xmsumSize ∧ r.xmsumRow + 1 = r.xmsumSize)) (r' : Regs)
    (hrow : r'.xmsumRow =
      if r.xmsumColumn + 1 == r.xmsumSize then r.xmsumRow + 1 else r.xmsumRow)
    (hcol : r'.xmsumColumn =
      if r.xmsumColumn + 1 == r.xmsumSize then 0 else r.xmsumColumn + 1) :
    Cursor r.xmsumSize.toNat r' (k + 1) := by
  have hr := h.row
  have hc := h.column
  rw [succ_eq_iff hc, succ_eq_iff hr] at hmore
  have hidx := h.index
  by_cases hend : r.xmsumColumn + 1 = r.xmsumSize
  · -- the first element of the next row
    have hendn := (succ_eq_iff hc).mp hend
    rw [hend, beq_self_eq_true, if_pos rfl] at hrow hcol
    have hrown : r'.xmsumRow.toNat = r.xmsumRow.toNat + 1 := by rw [hrow, toNat_succ hr]
    have hcoln : r'.xmsumColumn.toNat = 0 := by rw [hcol]; rfl
    refine ⟨by omega, by omega, ?_⟩
    rw [hrown, hcoln, Nat.succ_mul]
    omega
  · have hendb : (r.xmsumColumn + 1 == r.xmsumSize) = false := by simpa using hend
    have hendn := mt (succ_eq_iff hc).mpr hend
    rw [hendb, if_neg (by decide)] at hrow hcol
    have hcoln : r'.xmsumColumn.toNat = r.xmsumColumn.toNat + 1 := by rw [hcol, toNat_succ hc]
    refine ⟨hrow ▸ hr, by omega, ?_⟩
    rw [hrow, hcoln]
    omega

/-- The counters of the last element. -/
theorem Cursor.last {k : ℕ} (h : Cursor r.xmsumSize.toNat r k)
    (hcol : r.xmsumColumn + 1 = r.xmsumSize) (hrow : r.xmsumRow + 1 = r.xmsumSize) :
    k + 1 = r.xmsumSize.toNat * r.xmsumSize.toNat := by
  have hc := (succ_eq_iff h.column).mp hcol
  have hr := (succ_eq_iff h.row).mp hrow
  have hidx := h.index
  have hexpand : (r.xmsumRow.toNat + 1) * r.xmsumSize.toNat =
      r.xmsumRow.toNat * r.xmsumSize.toNat + r.xmsumSize.toNat := Nat.succ_mul _ _
  rw [hr] at hexpand
  omega

/-- One cycle of a traversal that is not done yet. -/
theorem Phase.next (h : Phase pmem base config g log r) (hbusy : r.xmsumState ≠ .done)
    (hresp : ∀ k, g = some (readWord (elementAddr base k)) → i.memResp.valid = true →
      i.memResp.bits = vaddrRead pmem (elementAddr base k)) :
    Phase pmem base config (outstandingNext (accepted r i) i.memResp.valid g)
      (log ++ (accepted r i).toList) (next r i) := by
  cases h with
  | request k state params cursor address sum reads =>
    rcases request_next (i := i) state with ⟨hsame, hheld, hfresh, hstate⟩
    cases hf : i.memReqFire with
    | false =>
      have hacc : accepted r i = none := by simp [accepted, hf]
      rw [hf, if_neg (by decide)] at hstate
      refine .request k hstate (params.of_same hsame) (cursor.of_same hsame)
        (hsame.address.trans address) ?_ ?_
      · rw [settled, hfresh, if_neg (by decide), hheld, sum]
      · rw [hacc, reads]
        exact List.append_nil _
    | true =>
      have hacc : accepted r i = some (readWord (elementAddr base k)) := by
        simp [accepted, asks, state, hf, address]
      rw [hf, if_pos rfl] at hstate
      refine .response k hstate (params.of_same hsame) (cursor.of_same hsame)
        (hsame.address.trans address) hfresh (hheld.trans sum) ?_ ?_
      · rw [hacc]
        rfl
      · rw [hacc, reads, wordReads_succ]
        rfl
  | response k state params cursor address fresh sum out reads =>
    have hacc : accepted r i = none := accepted_of_ne (by simp [state])
    rw [hacc]
    cases hv : i.memResp.valid with
    | false =>
      rw [response_waits state hv]
      refine .response k state params cursor address fresh sum out ?_
      rw [reads]
      exact List.append_nil _
    | true =>
      have hdata := hresp k out hv
      -- the response brings the loop variables to the next element
      have hsum : (held r).step r.xmsumClip i.memResp.bits = after pmem base config (k + 1) := by
        rw [sum, hdata, params.clip]
        rfl
      have hcursor : Cursor r.xmsumSize.toNat r k := params.size ▸ cursor
      by_cases hlast : r.xmsumColumn + 1 = r.xmsumSize ∧ r.xmsumRow + 1 = r.xmsumSize
      · have hk := hcursor.last hlast.1 hlast.2
        rw [params.size] at hk
        rw [response_last state hv hlast.1 hlast.2]
        refine .finalize rfl ?_ ?_
        · rw [← hk]
          exact hsum
        · rw [← hk, reads]
          exact List.append_nil _
      · have hadv := hcursor.advance hlast (MatrixSum.next r i)
          (by rw [response_moves state hv hlast]) (by rw [response_moves state hv hlast])
        rw [params.size] at hadv
        rw [response_moves state hv hlast] at hadv ⊢
        refine .request (k + 1) rfl ⟨params.size, params.clip⟩ hadv ?_ hsum ?_
        · rw [elementAddr_succ, address]
        · rw [reads]
          exact List.append_nil _
  | finalize state sum reads =>
    have hacc : accepted r i = none := accepted_of_ne (by simp [state])
    rcases finalize_next (i := i) state with ⟨hstate, hresult⟩
    refine .done hstate ?_ ?_
    · rw [hresult, sum, matrixClippedSum, config_size, config_clip]
      rfl
    · rw [hacc, reads]
      exact List.append_nil _
  | done state _ _ => exact absurd state hbusy

/-- A result that is not taken stays. -/
theorem done_waits (hs : r.xmsumState = .done) (hf : i.outFire = false) : next r i = r := by
  simp [next, control, hs, hf]

/-! ### Progress -/

/-- The number of handshakes with the memory that are still to come. -/
def rank (r : Regs) : ℕ :=
  match r.xmsumState with
  | .request =>
    2 * (r.xmsumSize.toNat * r.xmsumSize.toNat -
      (r.xmsumRow.toNat * r.xmsumSize.toNat + r.xmsumColumn.toNat))
  | .response =>
    2 * (r.xmsumSize.toNat * r.xmsumSize.toNat -
      (r.xmsumRow.toNat * r.xmsumSize.toNat + r.xmsumColumn.toNat)) - 1
  | _ => 0

theorem rank_request {k : ℕ} (hs : r.xmsumState = .request)
    (h : Cursor r.xmsumSize.toNat r k) :
    rank r = 2 * (r.xmsumSize.toNat * r.xmsumSize.toNat - k) := by
  rw [rank, hs, ← h.index]

theorem rank_response {k : ℕ} (hs : r.xmsumState = .response)
    (h : Cursor r.xmsumSize.toNat r k) :
    rank r = 2 * (r.xmsumSize.toNat * r.xmsumSize.toNat - k) - 1 := by
  rw [rank, hs, ← h.index]

/-- An accepted request is progress. -/
theorem rank_lt_of_fire {k : ℕ} (hs : r.xmsumState = .request)
    (h : Cursor r.xmsumSize.toNat r k) (hf : i.memReqFire = true) : rank (next r i) < rank r := by
  rcases request_next (i := i) hs with ⟨hsame, _, _, hstate⟩
  rw [hf, if_pos rfl] at hstate
  have hnext : Cursor (next r i).xmsumSize.toNat (next r i) k := by
    rw [hsame.size]
    exact h.of_same hsame
  have hlt := h.lt
  rw [rank_request hs h, rank_response hstate hnext, hsame.size]
  omega

/-- So is a response. -/
theorem rank_lt_of_response {k : ℕ} (hs : r.xmsumState = .response)
    (h : Cursor r.xmsumSize.toNat r k) (hv : i.memResp.valid = true) :
    rank (next r i) < rank r := by
  have hlt := h.lt
  rw [rank_response hs h]
  by_cases hlast : r.xmsumColumn + 1 = r.xmsumSize ∧ r.xmsumRow + 1 = r.xmsumSize
  · rw [response_last hs hv hlast.1 hlast.2]
    show 0 < _
    omega
  · have hadv := h.advance hlast (next r i)
      (by rw [response_moves hs hv hlast]) (by rw [response_moves hs hv hlast])
    have hsize : (next r i).xmsumSize = r.xmsumSize := by rw [response_moves hs hv hlast]
    have hstate : (next r i).xmsumState = .request := by rw [response_moves hs hv hlast]
    have hadv' : Cursor (next r i).xmsumSize.toNat (next r i) (k + 1) := by
      rw [hsize]
      exact hadv
    rw [rank_request hstate hadv', hsize]
    omega

end Phases

end MatrixSum
end Core
end Jyd
