import Jyd.Audit.Python
import Jyd.Report.Stages
import Mathlib.Data.Finset.Basic
import Mathlib.Data.List.Dedup

/-!
# Sidecar — validation of the record of an iteration

`validate_sidecar` of the iteration audit checks the JSON record of an optimisation step: its own
fields, the artifacts and manifests it names, the goals, the board samples and the summary of the
Vivado run.  It is a list of stages here, in the order of the source; each adds its messages or
ends the validation with an exception.
-/

namespace Jyd
namespace Audit

open Report

/-- `GOAL_WNS_NS`, the double next to -0.3. -/
def goalWnsNs : PyFloat := .finite (-5404319552844595 / 18014398509481984)

/-- `GOAL_RUNTIME_S`, the double next to 6.8. -/
def goalRuntimeS : PyFloat := .finite (7656119366529843 / 1125899906842624)

/-! ## Pieces -/

/-- `v in names`, for a set of strings: only a hashable value can be looked up. -/
def inSet (v : Json) (names : List String) : Except Exn Bool :=
  match v with
  | .arr _ | .obj _ => .error .typeError
  | .str s => .ok (names.contains s)
  | _ => .ok false

/-- `v.get`, which only a dictionary has. -/
def asDict : Json → Except Exn Dict
  | .obj d => .ok d
  | _ => .error .attributeError

/-- A field whose value is one of a set of names; `listing` is the sorted set in the message. -/
def memberStage (value : Dict) (field listing : String) (names : List String) : Stage Exn :=
  match inSet (Dict.get value field) names with
  | .error e => .error e
  | .ok found => .ok (require found (field ++ " must be one of " ++ listing))

/-- A conflict of two values, unless one of them is missing. -/
def conflict (a b : Json) (message : String) : List String :=
  require (a.isNull || b.isNull || a.eq b) message

def artifactSha : Json → Option String
  | .obj d =>
    match Dict.get d "sha256" with
    | .str s => some s
    | _ => none
  | .str s => if sha256Text s then some s else none
  | _ => none

/-- The digest as a value; `None` if there is none. -/
def optionStr : Option String → Json
  | some s => .str s
  | none => .null

/-! ## The record itself -/

section Record

variable (value : Dict)

def experiment : Dict := (Dict.get value "experiment").fields
def identity : Dict := (Dict.get value "identity").fields
def results : Dict := (Dict.get value "results").fields

def schemaMessages : List String :=
  require ((Dict.get value "schema").eq (.str "jyd-optimization-iteration-sidecar"))
    "schema must be 'jyd-optimization-iteration-sidecar'" ++
  require ((Dict.get value "schema_version").eq (.int 2)) "schema_version must be 2"

/-- The identifiers seen so far, if the caller keeps them. -/
def duplicateMessages (known : Option (Finset String)) : List String :=
  match known, Dict.get (experiment value) "id" with
  | some ids, .str s => require (decide (s ∉ ids)) ("duplicate experiment ID: " ++ s)
  | _, _ => []

/-- The identifiers seen afterwards.  They are taken before anything in the record can fail. -/
def idsAfter (ids : Finset String) : Finset String :=
  match Dict.get (experiment value) "id" with
  | .str s => insert s ids
  | _ => ids

def experimentMessages (known : Option (Finset String)) : List String :=
  require (Dict.get value "experiment").isObj "experiment must be an object" ++
  ["id", "title"].flatMap (fun field =>
    require (nonEmptyStr (Dict.get (experiment value) field))
      ("experiment." ++ field ++ " must be a non-empty string")) ++
  duplicateMessages value known

def memberStages : List (Stage Exn) :=
  [memberStage value "status"
      "['accepted', 'complete', 'failed', 'in_progress', 'partial', 'planned', 'rejected']"
      ["planned", "in_progress", "complete", "accepted", "rejected", "partial", "failed"],
   memberStage value "method_class"
      ("['architecture', 'floorplan', 'measurement', 'other', 'placement', 'route', " ++
        "'structural_rtl', 'synthesis_directive']")
      ["structural_rtl", "architecture", "measurement", "floorplan", "placement", "route",
        "synthesis_directive", "other"],
   memberStage value "decision" "['accepted', 'final', 'hold', 'planned', 'rejected']"
      ["planned", "accepted", "rejected", "hold", "final"],
   memberStage value "promotion_level" "['baseline', 'candidate', 'final', 'interim', 'none']"
      ["none", "candidate", "interim", "baseline", "final"],
   memberStage value "evidence_quality" "['complete', 'error', 'partial', 'sampled', 'unknown']"
      ["complete", "partial", "sampled", "unknown", "error"]]

def debtMessages : List String :=
  require
    (match Dict.get value "validation_debt" with
      | .arr items => items.all Json.isStr
      | _ => false)
    "validation_debt must be an array of strings" ++
  ["supersedes", "baseline_id"].flatMap fun field =>
    require ((Dict.get value field).isNull || nonEmptyStr (Dict.get value field))
      (field ++ " must be a non-empty string or null")

def identityMessages : List String :=
  let strategy := Dict.get (identity value) "strategy"
  let input := Dict.get (identity value) "input"
  require (Dict.get value "identity").isObj "identity must be an object" ++
  require (isCommit (Dict.get (identity value) "code_commit"))
    "identity.code_commit must be a hexadecimal commit" ++
  require ((Dict.get (identity value) "vivado_commit").isNull ||
      isCommit (Dict.get (identity value) "vivado_commit"))
    "identity.vivado_commit must be a hexadecimal commit" ++
  require (Dict.get (identity value) "frequency_mhz").number.isSome
    "identity.frequency_mhz must be a number" ++
  require (strategy.isStr || strategy.isObj) "identity.strategy is required" ++
  require (input.isStr || input.isObj) "identity.input is required"

end Record

/-! ## Artifacts and manifests -/

section Artifacts

variable (world : World) (baseDir : Option Path)

/-- The file of an artifact and its digest. -/
def artifactFile (name path : String) (digest : Json) (target : Path) : Stage Exn :=
  match world.isFile target with
  | .error text => .error (.osError text)
  | .ok false => .ok ["identity." ++ name ++ ".path does not exist: " ++ path]
  | .ok true =>
    match digest with
    | .str recorded =>
      if sha256Text recorded then
        match world.sha256File target with
        | .error e => .error e
        | .ok actual =>
          .ok (require (world.lower actual == world.lower recorded)
            ("identity." ++ name ++ ".sha256 does not match the artifact"))
      else .ok []
    | _ => .ok []

def validateArtifact (name : String) (v : Json) : Stage Exn :=
  match v with
  | .null => .ok ["identity." ++ name ++ " is required"]
  | .obj d =>
    let shape :=
      require (nonEmptyStr (Dict.get d "path"))
        ("identity." ++ name ++ ".path must be a non-empty string") ++
      require (isSha256 (Dict.get d "sha256"))
        ("identity." ++ name ++ ".sha256 must be a 64-character hex digest")
    match baseDir, Dict.get d "path" with
    -- an empty path has been reported, but the file is looked for all the same
    | some dir, .str path =>
      andThen (.ok shape)
        (artifactFile world name path (Dict.get d "sha256") (dir.join (Path.ofText path)))
    | _, _ => .ok shape
  | _ => .ok ["identity." ++ name ++ " must be an object"]

def artifactPath (v : Json) : Option Path :=
  match v.sub "path" with
  | .str path =>
    match baseDir with
    | some dir => some (dir.join (Path.ofText path))
    | none => some (Path.ofText path)
  | _ => none

/-- The contents of a manifest; one that is no small JSON object is empty. -/
def manifestJson (v : Json) : Except Exn Dict :=
  match artifactPath baseDir v with
  | none => .ok []
  | some path =>
    if world.lower path.suffix != ".json" then .ok []
    else
      match world.isFile path with
      | .error text => .error (.osError text)
      | .ok false => .ok []
      | .ok true =>
        match world.size path with
        | .error text => .error (.osError text)
        | .ok size =>
          if 10 * 1024 * 1024 < size then .ok []
          else
            match world.loadJson path with
            | .ok d => .ok d
            -- unreadable manifests count as empty; only deep nesting gets out
            | .error e => if e.caught then .ok [] else .error e

variable (value : Dict)

def artifactNames : List String := ["source_manifest", "input_manifest", "dcp", "bitstream"]

def artifactStages : List (Stage Exn) :=
  artifactNames.map fun name => validateArtifact world baseDir name (Dict.get (identity value) name)

def inputSha : Json := (Dict.get (identity value) "input").sub "sha256"

def inputShaMessages : List String :=
  require ((inputSha value).isNull || isSha256 (inputSha value))
    "identity.input.sha256 must be a 64-character hex digest"

def sourceManifest : Except Exn Dict :=
  manifestJson world baseDir (Dict.get (identity value) "source_manifest")

def inputManifest : Except Exn Dict :=
  manifestJson world baseDir (Dict.get (identity value) "input_manifest")

def sourceManifestStage : Stage Exn :=
  match sourceManifest world baseDir value with
  | .error e => .error e
  | .ok source =>
    let commit := (Dict.get source "code_commit").orElse (Dict.get source "commit")
    .ok (require (commit.isNull || commit.eq (Dict.get (identity value) "code_commit"))
      "source manifest commit conflicts with identity.code_commit")

def inputManifestStage : Stage Exn :=
  match inputManifest world baseDir value with
  | .error e => .error e
  | .ok input =>
    .ok (conflict ((Dict.get input "sha256").orElse (Dict.get input "input_sha256"))
      (inputSha value) "input manifest hash conflicts with identity.input.sha256")

def dcpMessages : List String :=
  let expected := (Dict.get (identity value) "bitstream").sub "dcp_sha256"
  require (expected.isNull ||
      expected.eq (optionStr (artifactSha (Dict.get (identity value) "dcp"))))
    "identity.bitstream.dcp_sha256 conflicts with identity.dcp.sha256"

end Artifacts

/-! ## Results and goals -/

section Results

variable (value : Dict)

def resultsMessages : List String :=
  let runtime := Dict.get (results value) "runtime_s"
  require (Dict.get value "results").isObj "results must be an object" ++
  require (nonEmptyStr (Dict.get (results value) "vivado_summary"))
    "results.vivado_summary must be a non-empty string" ++
  ["wns_ns", "tns_ns", "whs_ns", "ths_ns", "violated", "runtime_s"].flatMap (fun metric =>
    require ((Dict.get (results value) metric).isNull ||
        (Dict.get (results value) metric).number.isSome)
      ("results." ++ metric ++ " must be numeric, boolean, or null")) ++
  require (runtime.isNull || runtime.number.isSome) "results.runtime_s must be numeric or null"

/-- A strict gate: its operator, its bound and the text of the bound. -/
structure Gate where
  name : String
  above : Bool
  threshold : PyFloat
  text : String

namespace Gate

def wns : Gate := ⟨"wns", true, goalWnsNs, "-0.3"⟩
def runtime : Gate := ⟨"runtime", false, goalRuntimeS, "6.8"⟩

def operator (g : Gate) : String := if g.above then ">" else "<"

def passes (g : Gate) (x : PyFloat) : Bool := if g.above then g.threshold.lt x else x.lt g.threshold

end Gate

/-- The outcome of a gate for a recorded value. -/
def expectedOutcome (g : Gate) (actual : Json) : Option Bool := actual.number.map g.passes

/-- `check_goal`: the outcome and the messages. -/
def checkGoal (g : Gate) (v : Json) : Option Bool × List String :=
  match v with
  | .obj d =>
    let actual := Dict.get d "value"
    let expected := expectedOutcome g actual
    (expected,
      require (actual.isNull || actual.number.isSome)
        ("goal_checks." ++ g.name ++ ".value must be numeric or null") ++
      require ((Dict.get d "threshold").eq (.float g.threshold))
        ("goal_checks." ++ g.name ++ ".threshold must be " ++ g.text) ++
      require ((Dict.get d "operator").eq (.str g.operator))
        ("goal_checks." ++ g.name ++ ".operator must be '" ++ g.operator ++ "'") ++
      require ((Dict.get d "passed").is expected)
        ("goal_checks." ++ g.name ++ ".passed does not match the strict gate"))
  | _ => (none, ["goal_checks." ++ g.name ++ " must be an object"])

/-- Both gates, if both have an outcome. -/
def bothPass : Option Bool → Option Bool → Option Bool
  | some a, some b => some (a && b)
  | _, _ => none

def goalMessages : List String :=
  match Dict.get value "goal_checks" with
  | .obj goals =>
    let wns := checkGoal .wns (Dict.get goals "wns")
    let runtime := checkGoal .runtime (Dict.get goals "runtime")
    wns.2 ++ runtime.2 ++
    require ((Dict.get goals "passed").is (bothPass wns.1 runtime.1))
      "goal_checks.passed does not match the strict gates" ++
    require (!(Dict.get goals "wns").isObj ||
        ((Dict.get goals "wns").sub "value").eq (Dict.get (results value) "wns_ns"))
      "goal_checks.wns.value conflicts with results.wns_ns" ++
    require (!(Dict.get goals "runtime").isObj ||
        ((Dict.get goals "runtime").sub "value").eq (Dict.get (results value) "runtime_s"))
      "goal_checks.runtime.value conflicts with results.runtime_s"
  | _ => ["goal_checks must be an object"]

end Results

/-! ## Board samples -/

section Board

variable (world : World)

/-- The messages for the fields of one sample. -/
def sampleMessages (label : String) (seen : Finset String) (sample : Dict) : List String :=
  (match Dict.get sample "id" with
    | .str s =>
      if !nonEmptyStr (.str s) then [label ++ ".id must be a non-empty string"]
      else require (decide (s ∉ seen)) ("duplicate board sample id: " ++ s)
    | _ => [label ++ ".id must be a non-empty string"]) ++
  require (isSha256 (Dict.get sample "bitstream_sha256"))
    (label ++ ".bitstream_sha256 must be a 64-character hex digest") ++
  require
    ((Dict.get sample "runtime_s").isNull ||
      (match (Dict.get sample "runtime_s").number with
        | some x => !goalRuntimeS.le x
        | none => false))
    (label ++ ".runtime_s must be below 6.8")

/-- The identifiers that are taken behind a sample. -/
def seenAfter (seen : Finset String) (sample : Dict) : Finset String :=
  match Dict.get sample "id" with
  | .str s => if nonEmptyStr (.str s) then insert s seen else seen
  | _ => seen

def samplesMessages (index : ℕ) (seen : Finset String) : List Json → List String
  | [] => []
  | sample :: rest =>
    let label := "board.samples[" ++ toString index ++ "]"
    match sample with
    | .obj d =>
      sampleMessages label seen d ++ samplesMessages (index + 1) (seenAfter seen d) rest
    | _ => (label ++ " must be an object") :: samplesMessages (index + 1) seen rest

/-- The samples that are marked as valid. -/
def validSamples (samples : List Json) : List Dict :=
  samples.filterMap fun sample =>
    match sample with
    | .obj d => if (Dict.get d "valid").is (some true) then some d else none
    | _ => none

/-- `sample.get("bitstream_sha256", "").lower()`. -/
def sampleHash (sample : Dict) : Except Exn String :=
  match (sample.lookup "bitstream_sha256").getD (.str "") with
  | .str s => .ok (world.lower s)
  | _ => .error .attributeError

def sampleHashes : List Dict → Except Exn (List String)
  | [] => .ok []
  | sample :: rest =>
    match sampleHash world sample with
    | .error e => .error e
    | .ok hash =>
      match sampleHashes rest with
      | .error e => .error e
      | .ok hashes => .ok (hash :: hashes)

/-- The messages that compare the board with its valid samples. -/
def boardMessages (board : Dict) (valid : ℕ) (hashes : List String) : List String :=
  let calculated := decide (2 ≤ valid) && hashes.dedup.length == 1 && !hashes.contains ""
  require ((Dict.get board "valid").is (some calculated))
    "board.valid does not match the valid sample set" ++
  require (!(Dict.get board "valid").is (some true) || decide (2 ≤ valid))
    "board.valid requires at least two valid samples" ++
  (match Dict.get board "bitstream_sha256" with
    | .null => []
    | .str recorded =>
      if !sha256Text recorded then ["board.bitstream_sha256 must be a 64-character hex digest"]
      else
        require (hashes.isEmpty ||
            (hashes.dedup.length == 1 && hashes.contains (world.lower recorded)))
          "board.bitstream_sha256 does not match valid samples"
    | _ => ["board.bitstream_sha256 must be a 64-character hex digest"])

def validateBoard (board : Json) : Stage Exn :=
  match board with
  | .obj d =>
    match Dict.get d "samples" with
    | .arr samples =>
      match sampleHashes world (validSamples samples) with
      | .error e => .error e
      | .ok hashes =>
        .ok (samplesMessages 0 ∅ samples ++
          boardMessages world d (validSamples samples).length hashes)
    | _ => .ok ["board.samples must be an array"]
  | _ => .ok ["board must be an object"]

end Board

/-! ## The summary of the run -/

section Summary

variable (world : World) (baseDir : Option Path) (value : Dict)

def summaryPathFor (v : Json) : Option Path :=
  match v, baseDir with
  | .str name, some dir => if nonEmptyStr (.str name) then some (dir.join (Path.ofText name)) else none
  | _, _ => none

/-- The digest of the summary. -/
def summaryHashStage (recorded : Json) (path : Path) : Stage Exn :=
  match recorded with
  | .str hash =>
    if sha256Text hash then
      match world.sha256File path with
      | .error e => .error e
      | .ok actual =>
        .ok (require (world.lower actual == world.lower hash)
          "results.vivado_summary_sha256 does not match the summary")
    else .ok ["results.vivado_summary_sha256 must be a 64-character hex digest"]
  | _ => .ok ["results.vivado_summary_sha256 must be a 64-character hex digest"]

def summarySchemaMessages (summary : Dict) : List String :=
  require ((Dict.get summary "schema").eq (.str "jyd-vivado-run-summary") &&
      (Dict.get summary "schema_version").eq (.int 2))
    "results.vivado_summary has an unsupported schema" ++
  require ((Dict.get summary "analysis_schema").eq (.str "jyd-vivado-timing-analysis") &&
      (Dict.get summary "analysis_schema_version").eq (.int 2))
    "results.vivado_summary has an unsupported timing analysis schema"

def identityConflicts (own summaryIdentity : Dict) : List String :=
  ["code_commit", "frequency_mhz"].flatMap (fun field =>
    conflict (Dict.get own field) (Dict.get summaryIdentity field)
      ("summary conflict: identity." ++ field)) ++
  ["id", "sha256"].flatMap fun field =>
    conflict ((Dict.get own "input").sub field) ((Dict.get summaryIdentity "input").sub field)
      ("summary conflict: identity.input." ++ field)

def summaryMetric (summary : Dict) (metric : String) : Json :=
  ((Dict.get summary "timing").sub "summary").sub metric

def resultConflicts (recorded summary : Dict) : List String :=
  ["wns_ns", "tns_ns", "whs_ns", "ths_ns"].flatMap (fun metric =>
    conflict (Dict.get recorded metric) (summaryMetric summary metric)
      ("summary conflict: results." ++ metric)) ++
  conflict (Dict.get recorded "runtime_s") ((Dict.get summary "performance").sub "runtime_s")
    "summary conflict: results.runtime_s" ++
  conflict (Dict.get recorded "report_kind") ((Dict.get summary "timing").sub "report_kind")
    "summary conflict: results.report_kind"

def artifactConflicts (own summaryIdentity : Dict) : List String :=
  match Dict.getObj summaryIdentity "artifacts" with
  | .obj artifacts =>
    artifactNames.flatMap fun name =>
      match artifactSha (Dict.get own name), artifactSha (Dict.get artifacts name) with
      | some a, some b =>
        require (a == "" || b == "" || world.lower a == world.lower b)
          ("summary conflict: identity." ++ name ++ ".sha256")
      | _, _ => []
  | _ => []

/-- The identities of the record and of the summary, which both have to be dictionaries. -/
def identityStage (summary : Dict) (messages : Dict → Dict → List String) : Stage Exn :=
  match asDict (Dict.getObj value "identity"), asDict (Dict.getObj summary "identity") with
  | .error e, _ => .error e
  | .ok _, .error e => .error e
  | .ok own, .ok summaryIdentity => .ok (messages own summaryIdentity)

def summaryConflicts (summary : Dict) (path : Path) : Stage Exn :=
  match asDict (Dict.getObj value "results") with
  | .error e => .error e
  | .ok recorded =>
    run
      [.ok (summarySchemaMessages summary),
       summaryHashStage world (Dict.get recorded "vivado_summary_sha256") path,
       identityStage value summary fun own summaryIdentity =>
         identityConflicts own summaryIdentity ++ resultConflicts recorded summary ++
           artifactConflicts world own summaryIdentity]

def summaryQualityMessages (summary : Dict) : List String :=
  let quality := (Dict.get summary "evidence").sub "quality"
  require (quality.isNull || (Dict.get value "evidence_quality").eq quality)
    "summary conflict: evidence_quality"

def summaryAuditStage (summary : Dict) : Stage Exn :=
  match inSet (Dict.get value "promotion_level") ["baseline", "final"] with
  | .error e => .error e
  | .ok formal =>
    .ok (require (!formal || ((Dict.get summary "audit").sub "status").eq (.str "ok"))
      "formal promotion requires summary audit status ok")

def summaryReportStage (summary : Dict) : Stage Exn :=
  -- the decision is looked up only for a routed report
  if ((Dict.get summary "timing").sub "report_kind").eq (.str "routed") then
    match inSet (Dict.get value "decision") ["accepted", "final"] with
    | .error e => .error e
    | .ok selected =>
      .ok (require (!selected) "routed fallback cannot be used for formal selection")
  else .ok []

/-- What is checked against a summary that could be read. -/
def summaryStages (summary : Dict) (path : Path) : List (Stage Exn) :=
  [summaryConflicts world value summary path,
   .ok (summaryQualityMessages value summary),
   summaryAuditStage value summary,
   summaryReportStage value summary]

/-- The summary of a name. -/
def summaryFileStage (path : Path) (name : String) : Stage Exn :=
  match world.isFile path with
  | .error text => .error (.osError text)
  | .ok false => .ok ["results.vivado_summary does not exist: " ++ name]
  | .ok true =>
    match world.loadJson path with
    | .ok summary => run (summaryStages world value summary path)
    | .error e =>
      if e.caught then .ok ["results.vivado_summary cannot be read: " ++ e.text] else .error e

def summaryStage : Stage Exn :=
  match summaryPathFor baseDir (Dict.get (results value) "vivado_summary"),
      Dict.get (results value) "vivado_summary" with
  | some path, .str name => summaryFileStage world value path name
  | _, _ => .ok []

variable {baseDir value}

/-- A record that names a summary has a dictionary of results. -/
theorem getObj_results {path : Path}
    (h : summaryPathFor baseDir (Dict.get (results value) "vivado_summary") = some path) :
    Dict.getObj value "results" = .obj (results value) := by
  rw [Dict.getObj]
  cases hlookup : value.lookup "results" with
  | none => simp [results, Dict.get, hlookup, Json.fields, summaryPathFor] at h
  | some v =>
    cases v with
    | obj d => simp [results, Dict.get, hlookup, Json.fields]
    | null | bool | int | float | str | arr =>
      simp [results, Dict.get, hlookup, Json.fields, summaryPathFor] at h

end Summary

/-! ## Promotion -/

section Promotion

variable (value : Dict)

def isFinal : Bool :=
  (Dict.get value "decision").eq (.str "final") || (Dict.get value "promotion_level").eq (.str "final")

def finalMessages : List String :=
  if isFinal value then
    require (!((Dict.get value "status").eq (.str "accepted") ||
        !(Dict.get value "decision").eq (.str "final") ||
        !(Dict.get value "promotion_level").eq (.str "final")))
      "accepted is not final; final requires decision=final and promotion_level=final" ++
    require ((Dict.get value "evidence_quality").eq (.str "complete"))
      "final promotion requires complete evidence" ++
    require (((Dict.get value "goal_checks").sub "passed").is (some true))
      "final promotion requires passing goal checks"
  else []

def promotionStage : Stage Exn :=
  match inSet (Dict.get value "promotion_level") ["baseline", "final"] with
  | .error e => .error e
  | .ok false => .ok []
  | .ok true =>
    -- `and` looks at the evidence only now
    match inSet (Dict.get value "evidence_quality") ["unknown", "sampled", "error"] with
    | .error e => .error e
    | .ok weak =>
      .ok (require (!weak)
        "baseline/final promotion cannot use unknown, sampled, or error evidence")

end Promotion

/-! ## The validation -/

section Validation

variable (world : World) (value : Dict) (baseDir : Option Path) (known : Option (Finset String))

/-- What follows the artifacts. -/
def laterStages : List (Stage Exn) :=
  [.ok (inputShaMessages value),
   sourceManifestStage world baseDir value,
   inputManifestStage world baseDir value,
   .ok (dcpMessages value ++ resultsMessages value ++ goalMessages value),
   validateBoard world (Dict.get value "board"),
   summaryStage world baseDir value,
   .ok (finalMessages value),
   promotionStage value]

def stages : List (Stage Exn) :=
  .ok (schemaMessages value ++ experimentMessages value known) ::
    (memberStages value ++
      .ok (debtMessages value ++ identityMessages value) ::
        (artifactStages world baseDir value ++ laterStages world value baseDir))

def validateSidecar : Except Exn (List String) := run (stages world value baseDir known)

end Validation

end Audit
end Jyd
