import Jyd.Audit.Sidecar
import Mathlib.Tactic.NormNum
import Mathlib.Tactic.Linarith

/-!
# FinalPromotion — what a record without complaints guarantees

A record that is marked as final and passes the validation has met both goals: the values it
records, those of the goal checks and those of the run's summary are the same, and the summary is
the file that its digest says.
-/

namespace Jyd
namespace Audit

open Report

/-- The measured values of a record, which are those of its goal checks and meet the goals. -/
structure Measured (value : Dict) (wns runtime : PyFloat) : Prop where
  recordedWns : (Dict.get (results value) "wns_ns").number = some wns
  recordedRuntime : (Dict.get (results value) "runtime_s").number = some runtime
  goalWns : (((Dict.get value "goal_checks").sub "wns").sub "value").number = some wns
  goalRuntime : (((Dict.get value "goal_checks").sub "runtime").sub "value").number = some runtime
  wnsAbove : (PyFloat.finite (-3 / 10)).lt wns = true
  runtimeBelow : runtime.lt (.finite (34 / 5)) = true

/-- The summary is there, has the recorded digest and does not contradict the record. -/
structure Summarised (world : World) (value : Dict) (dir : Path) (wns runtime : PyFloat)
    (summary : Dict) : Prop where
  file : ∃ name bytes, Dict.get (results value) "vivado_summary" = .str name ∧
    world.isFile (dir.join (Path.ofText name)) = .ok true ∧
    world.read (dir.join (Path.ofText name)) = .ok bytes ∧ world.parse bytes = .ok (.obj summary) ∧
    ∃ recorded, Dict.get (results value) "vivado_summary_sha256" = .str recorded ∧
      asciiLower recorded = hexdigest (world.sha256 bytes)
  wns : (summaryMetric summary "wns_ns").isNull = true ∨
    (summaryMetric summary "wns_ns").number = some wns
  runtime : ((Dict.get summary "performance").sub "runtime_s").isNull = true ∨
    ((Dict.get summary "performance").sub "runtime_s").number = some runtime
  audit : (Dict.get summary "audit").sub "status" = .str "ok"
  reportKind : (Dict.get summary "timing").sub "report_kind" ≠ .str "routed"

/-- A sound final promotion. -/
structure FinalPromotion (world : World) (value : Dict) (dir : Path) : Prop where
  decision : Dict.get value "decision" = .str "final"
  promotionLevel : Dict.get value "promotion_level" = .str "final"
  status : Dict.get value "status" ≠ .str "accepted"
  evidence : Dict.get value "evidence_quality" = .str "complete"
  measured : ∃ wns runtime summary, Measured value wns runtime ∧
    Summarised world value dir wns runtime summary

/-! ## The goals -/

theorem conflict_eq_nil_iff {a b : Json} {message : String} :
    conflict a b message = [] ↔ a.isNull = true ∨ b.isNull = true ∨ a.eq b = true := by
  rw [conflict, require_eq_nil_iff]
  simp only [Bool.or_eq_true, or_assoc]

/-- A value that does not conflict with a number is missing or the same number. -/
theorem number_of_conflict {a b : Json} {message : String} {x : PyFloat} (ha : a.number = some x)
    (h : conflict a b message = []) : b.isNull = true ∨ b.number = some x := by
  rcases conflict_eq_nil_iff.mp h with hnull | hnull | heq
  · rw [Json.number_ne_null ha] at hnull
    cases hnull
  · exact Or.inl hnull
  · exact Or.inr (Json.eq_number ha heq)

theorem finite_lt_of_lt {a b : ℚ} {x : PyFloat} (hab : a < b) (h : (PyFloat.finite b).lt x = true) :
    (PyFloat.finite a).lt x = true := by
  cases x with
  | finite q =>
    simp only [PyFloat.lt, decide_eq_true_eq] at h ⊢
    exact hab.trans h
  | infinity negative => exact h
  | nan => exact h

theorem lt_finite_of_lt {a b : ℚ} {x : PyFloat} (hab : a < b) (h : x.lt (.finite a) = true) :
    x.lt (.finite b) = true := by
  cases x with
  | finite q =>
    simp only [PyFloat.lt, decide_eq_true_eq] at h ⊢
    exact h.trans hab
  | infinity negative => exact h
  | nan => exact h

theorem wns_above {x : PyFloat} (h : Gate.wns.passes x = true) :
    (PyFloat.finite (-3 / 10)).lt x = true :=
  finite_lt_of_lt (by norm_num) h

theorem runtime_below {x : PyFloat} (h : Gate.runtime.passes x = true) :
    x.lt (.finite (34 / 5)) = true :=
  lt_finite_of_lt (by norm_num) h

/-- A gate with a positive outcome has a number that passes it. -/
theorem passes_of_checkGoal {g : Gate} {v : Json} (h : (checkGoal g v).1 = some true) :
    ∃ x, (v.sub "value").number = some x ∧ g.passes x = true := by
  cases v with
  | obj d =>
    simp only [checkGoal, expectedOutcome, Option.map_eq_some_iff] at h
    exact h
  | null | bool | int | float | str | arr => cases h

theorem isObj_of_number {v : Json} {key : String} {x : PyFloat} (h : (v.sub key).number = some x) :
    v.isObj = true := by
  cases v with
  | obj d => rfl
  | null | bool | int | float | str | arr => cases h

theorem bothPass_eq_true {a b : Option Bool} (h : bothPass a b = some true) :
    a = some true ∧ b = some true := by
  cases a with
  | none => cases h
  | some a =>
    cases b with
    | none => cases h
    | some b =>
      simp only [bothPass, Option.some.injEq, Bool.and_eq_true] at h
      exact ⟨congrArg some h.1, congrArg some h.2⟩

/-- The goal that a gate checks has the value that is recorded. -/
theorem recorded_of_goal {goal recorded : Json} {x : PyFloat}
    (hgoal : (goal.sub "value").number = some x)
    (h : (!goal.isObj || (goal.sub "value").eq recorded) = true) : recorded.number = some x := by
  rw [isObj_of_number hgoal, Bool.not_true, Bool.false_or] at h
  exact Json.eq_number hgoal h

section Stages

variable {world : World} {value : Dict} {dir : Path}

theorem measured_of_goals (hgoals : goalMessages value = [])
    (hpassed : (Dict.get value "goal_checks").sub "passed" = .bool true) :
    ∃ wns runtime, Measured value wns runtime := by
  cases hchecks : Dict.get value "goal_checks" with
  | obj goals =>
    rw [hchecks] at hpassed
    change Dict.get goals "passed" = .bool true at hpassed
    simp only [goalMessages, hchecks, List.append_eq_nil_iff, require_eq_nil_iff] at hgoals
    obtain ⟨⟨⟨-, hboth⟩, hwns⟩, hruntime⟩ := hgoals
    -- the outcome that the record has to repeat is positive, so both gates have passed
    have hpass : bothPass (checkGoal .wns (Dict.get goals "wns")).1
        (checkGoal .runtime (Dict.get goals "runtime")).1 = some true := by
      rw [hpassed] at hboth
      cases houtcome : bothPass (checkGoal .wns (Dict.get goals "wns")).1
        (checkGoal .runtime (Dict.get goals "runtime")).1 with
      | none =>
        rw [houtcome] at hboth
        cases hboth
      | some b =>
        rw [houtcome] at hboth
        rw [← eq_of_beq hboth]
    obtain ⟨hpassWns, hpassRuntime⟩ := bothPass_eq_true hpass
    obtain ⟨wns, hwnsValue, hwnsPasses⟩ := passes_of_checkGoal hpassWns
    obtain ⟨runtime, hruntimeValue, hruntimePasses⟩ := passes_of_checkGoal hpassRuntime
    exact ⟨wns, runtime,
      { recordedWns := recorded_of_goal hwnsValue hwns
        recordedRuntime := recorded_of_goal hruntimeValue hruntime
        goalWns := by rw [hchecks]; exact hwnsValue
        goalRuntime := by rw [hchecks]; exact hruntimeValue
        wnsAbove := wns_above hwnsPasses
        runtimeBelow := runtime_below hruntimePasses }⟩
  | null | bool | int | float | str | arr =>
    rw [hchecks] at hpassed
    cases hpassed

/-! ## The summary -/

/-- The digest of the summary is the recorded one. -/
theorem digest_of_hashStage {recorded : Json} {path : Path} {bytes : List UInt8}
    (hread : world.read path = .ok bytes) (h : summaryHashStage world recorded path = .ok []) :
    ∃ hash, recorded = .str hash ∧ asciiLower hash = hexdigest (world.sha256 bytes) := by
  cases recorded with
  | str hash =>
    refine ⟨hash, rfl, ?_⟩
    rw [summaryHashStage] at h
    split at h
    · rename_i htext
      simp only [World.sha256File, hread, Except.ok.injEq, require_eq_nil_iff, beq_iff_eq] at h
      exact (world.lower_eq_iff htext _).mp h
    · cases h
  | null | bool | int | float | arr | obj => cases h

theorem conflicts_of_identityStage {summary : Dict} {messages : Dict → Dict → List String}
    (h : identityStage value summary messages = .ok []) :
    ∃ own summaryIdentity, messages own summaryIdentity = [] := by
  rw [identityStage] at h
  split at h
  · cases h
  · cases h
  · exact ⟨_, _, Except.ok.inj h⟩

theorem resultConflicts_wns {recorded summary : Dict} (h : resultConflicts recorded summary = []) :
    conflict (Dict.get recorded "wns_ns") (summaryMetric summary "wns_ns")
        ("summary conflict: results." ++ "wns_ns") = [] ∧
      conflict (Dict.get recorded "runtime_s") ((Dict.get summary "performance").sub "runtime_s")
        "summary conflict: results.runtime_s" = [] := by
  simp only [resultConflicts, List.append_eq_nil_iff, List.flatMap_eq_nil_iff] at h
  exact ⟨h.1.1 "wns_ns" List.mem_cons_self, h.1.2⟩

theorem summarised_of_stages {summary : Dict} {path : Path} {bytes : List UInt8} {name : String}
    {wns runtime : PyFloat} (hmeasured : Measured value wns runtime)
    (hname : Dict.get (results value) "vivado_summary" = .str name)
    (hresults : Dict.getObj value "results" = .obj (results value))
    (hpath : path = dir.join (Path.ofText name)) (hfile : world.isFile path = .ok true)
    (hread : world.read path = .ok bytes) (hparse : world.parse bytes = .ok (.obj summary))
    (hdecision : Dict.get value "decision" = .str "final")
    (hpromotion : Dict.get value "promotion_level" = .str "final")
    (h : run (summaryStages world value summary path) = .ok []) :
    Summarised world value dir wns runtime summary := by
  simp only [summaryStages, run_cons_eq_ok_nil_iff] at h
  obtain ⟨hconflicts, -, haudit, hreport, -⟩ := h
  rw [summaryConflicts, hresults] at hconflicts
  simp only [asDict, run_cons_eq_ok_nil_iff] at hconflicts
  obtain ⟨-, hhash, hidentity, -⟩ := hconflicts
  obtain ⟨own, summaryIdentity, hmessages⟩ := conflicts_of_identityStage hidentity
  simp only [List.append_eq_nil_iff] at hmessages
  obtain ⟨hwns, hruntime⟩ := resultConflicts_wns hmessages.1.2
  subst hpath
  exact
    { file := ⟨name, bytes, hname, hfile, hread, hparse, digest_of_hashStage hread hhash⟩
      wns := number_of_conflict hmeasured.recordedWns hwns
      runtime := number_of_conflict hmeasured.recordedRuntime hruntime
      audit := by
        rw [summaryAuditStage, hpromotion] at haudit
        simpa [inSet, Json.eq_str] using haudit
      reportKind := by
        intro hrouted
        rw [summaryReportStage, hrouted, hdecision] at hreport
        simp [inSet, Json.eq_str] at hreport }

theorem summarised_of_stage {wns runtime : PyFloat} (hmeasured : Measured value wns runtime)
    (hname : nonEmptyStr (Dict.get (results value) "vivado_summary") = true)
    (hdecision : Dict.get value "decision" = .str "final")
    (hpromotion : Dict.get value "promotion_level" = .str "final")
    (h : summaryStage world (some dir) value = .ok []) :
    ∃ summary, Summarised world value dir wns runtime summary := by
  obtain ⟨name, hstr⟩ : ∃ name, Dict.get (results value) "vivado_summary" = .str name := by
    cases hv : Dict.get (results value) "vivado_summary" with
    | str name => exact ⟨name, rfl⟩
    | null | bool | int | float | arr | obj =>
      rw [hv] at hname
      cases hname
  rw [hstr] at hname
  have hpath : summaryPathFor (some dir) (.str name) = some (dir.join (Path.ofText name)) :=
    if_pos hname
  have hresults : Dict.getObj value "results" = .obj (results value) :=
    getObj_results (hstr.symm ▸ hpath)
  simp only [summaryStage, hstr, hpath, summaryFileStage] at h
  -- a missing or unreadable summary would have left a message
  cases hfile : world.isFile (dir.join (Path.ofText name)) with
  | error text => rw [hfile] at h; cases h
  | ok isFile =>
    cases isFile with
    | false => rw [hfile] at h; cases h
    | true =>
      rw [hfile] at h
      cases hload : world.loadJson (dir.join (Path.ofText name)) with
      | error e =>
        simp only [hload] at h
        split at h <;> cases h
      | ok summary =>
        simp only [hload] at h
        obtain ⟨bytes, hread, hparse⟩ := World.loadJson_eq_ok hload
        exact ⟨summary, summarised_of_stages hmeasured hstr hresults rfl hfile hread hparse
          hdecision hpromotion h⟩

end Stages

/-! ## The guarantee -/

/-- A record that is marked as final and validates without a message is a sound promotion. -/
theorem final_promotion_sound (world : World) (value : Dict) (dir : Path)
    (known : Option (Finset String))
    (hvalid : validateSidecar world value (some dir) known = .ok [])
    (hfinal : Dict.get value "decision" = .str "final" ∨
      Dict.get value "promotion_level" = .str "final") :
    FinalPromotion world value dir := by
  -- of the stages three are used: the goals, the summary and the rules for a final record
  have hstage : ∀ stage ∈ stages world value (some dir) known, stage = .ok [] :=
    run_eq_ok_nil_iff.mp hvalid
  have hmessages : (.ok (dcpMessages value ++ resultsMessages value ++ goalMessages value) :
      Stage Exn) = .ok [] := hstage _ (by simp [stages, laterStages])
  have hsummary : summaryStage world (some dir) value = .ok [] :=
    hstage _ (by simp [stages, laterStages])
  have hpromotion : (.ok (finalMessages value) : Stage Exn) = .ok [] :=
    hstage _ (by simp [stages, laterStages])
  simp only [Except.ok.injEq, List.append_eq_nil_iff] at hmessages hpromotion
  have hmarked : isFinal value = true := by
    rcases hfinal with h | h <;> simp [isFinal, h, Json.eq_str]
  simp only [finalMessages, hmarked, if_true, List.append_eq_nil_iff, require_eq_nil_iff,
    Bool.not_eq_true', Bool.or_eq_false_iff, Bool.not_eq_false', Json.eq_str, Json.is_some_iff]
    at hpromotion
  obtain ⟨⟨⟨⟨hstatus, hdecision⟩, hlevel⟩, hevidence⟩, hpassed⟩ := hpromotion
  have hname : nonEmptyStr (Dict.get (results value) "vivado_summary") = true := by
    have hresults := hmessages.1.2
    simp only [resultsMessages, List.append_eq_nil_iff, require_eq_nil_iff] at hresults
    exact hresults.1.1.2
  obtain ⟨wns, runtime, hmeasured⟩ := measured_of_goals hmessages.2 hpassed
  obtain ⟨summary, hsummarised⟩ := summarised_of_stage hmeasured hname hdecision hlevel hsummary
  exact
    { decision := hdecision
      promotionLevel := hlevel
      status := fun h => by
        rw [Json.eq_str.mpr h] at hstatus
        cases hstatus
      evidence := hevidence
      measured := ⟨wns, runtime, summary, hmeasured, hsummarised⟩ }

/-! A record of a run at -0.25 ns and 6.5 s, beside its summary and an artifact. -/

def sampleSummary : Dict :=
  [("schema", .str "jyd-vivado-run-summary"), ("schema_version", .int 2),
   ("analysis_schema", .str "jyd-vivado-timing-analysis"), ("analysis_schema_version", .int 2),
   ("timing", .obj
     [("report_kind", .str "final"),
      ("summary", .obj [("wns_ns", .float (.finite (-1 / 4)))])]),
   ("performance", .obj [("runtime_s", .float (.finite (13 / 2)))]),
   ("evidence", .obj [("quality", .str "complete")]),
   ("audit", .obj [("status", .str "ok")])]

/-- What the summary is written as. -/
def sampleText : String :=
  "\x7b\"schema\": \"jyd-vivado-run-summary\", \"schema_version\": 2, " ++
  "\"analysis_schema\": \"jyd-vivado-timing-analysis\", \"analysis_schema_version\": 2, " ++
  "\"timing\": \x7b\"report_kind\": \"final\", \"summary\": \x7b\"wns_ns\": -0.25\x7d\x7d, " ++
  "\"performance\": \x7b\"runtime_s\": 6.5\x7d, " ++
  "\"evidence\": \x7b\"quality\": \"complete\"\x7d, " ++
  "\"audit\": \x7b\"status\": \"ok\"\x7d\x7d"

def fileBytes (text : String) : List UInt8 := text.toUTF8.data.toList

def sampleFile (path : Path) : List UInt8 :=
  fileBytes (if path = ⟨"/", ["records", "summary.json"]⟩ then sampleText else "jyd")

/-- The SHA-256 digests of the two files. -/
def summaryDigest : BitVec 256 :=
  0xc165de5639da6530359bca58ae402dee4228df2190b7703e5dd170c5168bdb74#256

def artifactDigest : BitVec 256 :=
  0xb0dc3800a619d5225c61b637825186960f5d0f7f9b04607fce4c5804870252e2#256

def sampleWorld : World :=
  { World.empty with
    isFile := fun _ => .ok true
    size := fun path => .ok (sampleFile path).length
    read := fun path => .ok (sampleFile path)
    parse := fun bytes =>
      if bytes = fileBytes sampleText then .ok (.obj sampleSummary)
      else .error (.invalid "Expecting value")
    sha256 := fun bytes =>
      if bytes = fileBytes sampleText then summaryDigest
      else if bytes = fileBytes "jyd" then artifactDigest
      else 0 }

def sampleArtifact : Json :=
  .obj [("path", .str "artifact.bin"), ("sha256", .str (hexdigest artifactDigest))]

def sampleGate (g : Gate) (value : ℚ) : Json :=
  .obj
    [("value", .float (.finite value)), ("threshold", .float g.threshold),
     ("operator", .str g.operator), ("passed", .bool true)]

def sampleRecord : Dict :=
  [("schema", .str "jyd-optimization-iteration-sidecar"), ("schema_version", .int 2),
   ("experiment", .obj [("id", .str "e1"), ("title", .str "first")]),
   ("status", .str "complete"), ("method_class", .str "structural_rtl"),
   ("decision", .str "final"), ("promotion_level", .str "final"),
   ("evidence_quality", .str "complete"), ("validation_debt", .arr []),
   ("identity", .obj
     [("code_commit", .str "0123abc"), ("frequency_mhz", .int 250), ("strategy", .str "default"),
      ("input", .str "coremark"), ("source_manifest", sampleArtifact),
      ("input_manifest", sampleArtifact), ("dcp", sampleArtifact), ("bitstream", sampleArtifact)]),
   ("results", .obj
     [("vivado_summary", .str "summary.json"),
      ("vivado_summary_sha256", .str (hexdigest summaryDigest)),
      ("wns_ns", .float (.finite (-1 / 4))), ("runtime_s", .float (.finite (13 / 2)))]),
   ("goal_checks", .obj
     [("wns", sampleGate .wns (-1 / 4)), ("runtime", sampleGate .runtime (13 / 2)),
      ("passed", .bool true)]),
   ("board", .obj [("samples", .arr []), ("valid", .bool false)])]

theorem final_promotion_sound_sample : FinalPromotion sampleWorld sampleRecord ⟨"/", ["records"]⟩ :=
  final_promotion_sound sampleWorld sampleRecord ⟨"/", ["records"]⟩ none (by decide +kernel)
    (Or.inl rfl)

end Audit
end Jyd
