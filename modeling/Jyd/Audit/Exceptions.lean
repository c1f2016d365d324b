import Jyd.Audit.Sidecar

/-!
# Exceptions — the records that end the validation

The callers of `validate_sidecar`, `command_validate` and the loop of `command_build_index`, catch
the errors of the file system and of the JSON parser.  Everything else ends the program.  The
records that do this are found here: a value that cannot be looked up in a set, an identity or a
digest of another type than the code expects, and files that are nested too deeply for the parser.
-/

namespace Jyd
namespace Audit

open Report

/-- The callers catch what is raised, if anything is. -/
def Reports : Except Exn (List String) → Prop
  | .ok _ => True
  | .error e => e.caught = true

/-- An exception that the callers do not catch. -/
def Uncaught (e : Exn) : Prop := e.caught = false

theorem reports_iff {result : Except Exn (List String)} :
    Reports result ↔ ¬ Raises Uncaught result := by
  cases result with
  | ok messages => simp [Reports]
  | error e => simp [Reports, Uncaught]

theorem not_raises_of_caught {e : Exn} (h : e.caught = true) :
    ¬ Raises Uncaught (.error e : Stage Exn) := by
  rw [raises_error_iff, Uncaught, h]
  exact Bool.true_eq_false.mp

/-! ## Sets -/

/-- Lists and dictionaries have no hash. -/
def Unhashable : Json → Prop
  | .arr _ | .obj _ => True
  | _ => False

theorem inSet_of_unhashable {v : Json} (h : Unhashable v) (names : List String) :
    inSet v names = .error .typeError := by
  cases v <;> first | rfl | exact h.elim

theorem inSet_of_hashable {v : Json} (h : ¬ Unhashable v) (names : List String) :
    ∃ found, inSet v names = .ok found := by
  cases v with
  | arr | obj => exact absurd trivial h
  | null | bool | int | float | str => exact ⟨_, rfl⟩

/-- The fields that are looked up in a set. -/
def setFields : List String :=
  ["status", "method_class", "decision", "promotion_level", "evidence_quality"]

section Members

variable {value : Dict}

theorem memberStage_raises_iff {field listing : String} {names : List String} :
    Raises Uncaught (memberStage value field listing names) ↔ Unhashable (Dict.get value field) := by
  by_cases h : Unhashable (Dict.get value field)
  · rw [memberStage, inSet_of_unhashable h]
    exact iff_of_true ⟨_, rfl, rfl⟩ h
  · obtain ⟨found, hfound⟩ := inSet_of_hashable h names
    rw [memberStage, hfound]
    exact iff_of_false (not_raises_ok _) h

theorem memberStage_completes_or_raises (field listing : String) (names : List String) :
    Completes (memberStage value field listing names) ∨
      Raises Uncaught (memberStage value field listing names) := by
  by_cases h : Unhashable (Dict.get value field)
  · exact Or.inr (memberStage_raises_iff.mpr h)
  · obtain ⟨found, hfound⟩ := inSet_of_hashable h names
    rw [memberStage, hfound]
    exact Or.inl (completes_ok _)

theorem memberStages_total :
    ∀ stage ∈ memberStages value, Completes stage ∨ Raises Uncaught stage := by
  simp only [memberStages, List.forall_mem_cons, List.not_mem_nil, false_implies, implies_true,
    and_true]
  exact ⟨memberStage_completes_or_raises _ _ _, memberStage_completes_or_raises _ _ _,
    memberStage_completes_or_raises _ _ _, memberStage_completes_or_raises _ _ _,
    memberStage_completes_or_raises _ _ _⟩

theorem memberStages_raise_iff :
    Raises Uncaught (run (memberStages value)) ↔
      ∃ field ∈ setFields, Unhashable (Dict.get value field) := by
  rw [raises_run_iff_exists memberStages_total]
  simp only [memberStages, setFields, List.exists_mem_cons_iff, List.not_mem_nil, false_and,
    exists_false, or_false, memberStage_raises_iff]

theorem memberStages_complete (h : ¬ ∃ field ∈ setFields, Unhashable (Dict.get value field)) :
    ∀ stage ∈ memberStages value, Completes stage := by
  intro stage hstage
  refine (memberStages_total stage hstage).resolve_right fun hraises => h ?_
  rw [← memberStages_raise_iff, raises_run_iff_exists memberStages_total]
  exact ⟨stage, hstage, hraises⟩

end Members

/-! ## Files -/

section Files

variable {world : World} {baseDir : Option Path} {value : Dict}

theorem sha256File_caught {path : Path} {e : Exn} (h : world.sha256File path = .error e) :
    e.caught = true := by
  rw [World.sha256File] at h
  split at h
  · cases h
    rfl
  · cases h

/-- The only exception of the parser that is not caught is the one for deep nesting. -/
theorem loadJson_uncaught {path : Path} {e : Exn} (h : world.loadJson path = .error e)
    (he : e.caught = false) : e = .recursionError := by
  rw [World.loadJson] at h
  split at h
  · cases h
    cases he
  · split at h
    · cases h
      cases he
    · exact (Except.error.inj h).symm
    · cases h
    · cases h
      cases he

theorem artifactFile_not_raises (name path : String) (digest : Json) (target : Path) :
    ¬ Raises Uncaught (artifactFile world name path digest target) := by
  unfold artifactFile
  split
  · exact not_raises_of_caught rfl
  · exact not_raises_ok _
  · split
    · split
      · split
        · rename_i e hsha
          exact not_raises_of_caught (sha256File_caught hsha)
        · exact not_raises_ok _
      · exact not_raises_ok _
    · exact not_raises_ok _

theorem validateArtifact_not_raises (name : String) (v : Json) :
    ¬ Raises Uncaught (validateArtifact world baseDir name v) := by
  unfold validateArtifact
  split
  · exact not_raises_ok _
  · dsimp only
    split
    · rw [raises_andThen_iff]
      rintro (h | ⟨-, h⟩)
      · exact not_raises_ok _ h
      · exact artifactFile_not_raises _ _ _ _ h
    · exact not_raises_ok _
  · exact not_raises_ok _

theorem artifactStages_not_raise : ¬ Raises Uncaught (run (artifactStages world baseDir value)) := by
  apply not_raises_run
  intro stage hstage
  obtain ⟨name, -, rfl⟩ := List.mem_map.mp hstage
  exact validateArtifact_not_raises name _

theorem manifestJson_uncaught {v : Json} {e : Exn} (h : manifestJson world baseDir v = .error e)
    (he : e.caught = false) : e = .recursionError := by
  rw [manifestJson] at h
  split at h
  · cases h
  split at h
  · cases h
  split at h
  · cases h
    cases he
  · cases h
  split at h
  · cases h
    cases he
  split at h
  · cases h
  split at h
  · cases h
  · rename_i hload
    split at h
    · cases h
    -- what the parser raises and `manifest_json` does not catch is raised again as it is
    · obtain rfl := Except.error.inj h
      exact loadJson_uncaught hload he

section Manifests

variable {manifest : Except Exn Dict} {messages : Dict → List String} {stage : Stage Exn}
  (hstage : stage = match manifest with
    | .error e => .error e
    | .ok d => .ok (messages d))

include hstage

/-- A stage that reads a manifest first completes when the manifest does. -/
theorem completes_iff_of_manifest : Completes stage ↔ ∃ d, manifest = .ok d := by
  rw [hstage]
  cases manifest with
  | error e => simp
  | ok d => simp

theorem raises_iff_of_manifest
    (huncaught : ∀ e, manifest = .error e → e.caught = false → e = .recursionError) :
    Raises Uncaught stage ↔ manifest = .error .recursionError := by
  rw [hstage]
  cases manifest with
  | ok d => simp
  | error e =>
    rw [raises_error_iff]
    constructor
    · intro he
      rw [huncaught e rfl he]
    · intro he
      rw [Except.error.inj he]
      rfl

end Manifests

end Files

/-! ## Board samples -/

section Board

variable (world : World)

/-- The digest of the sample is there but is no string. -/
def BadSample (sample : Dict) : Prop :=
  ∃ v, sample.lookup "bitstream_sha256" = some v ∧ v.isStr = false

/-- A valid sample has such a digest. -/
def BoardBreaks (board : Json) : Prop :=
  ∃ d samples sample, board = .obj d ∧ Dict.get d "samples" = .arr samples ∧
    Json.obj sample ∈ samples ∧ Dict.get sample "valid" = .bool true ∧ BadSample sample

theorem sampleHash_cases (sample : Dict) :
    (BadSample sample ∧ sampleHash world sample = .error .attributeError) ∨
      (¬ BadSample sample ∧ ∃ hash, sampleHash world sample = .ok hash) := by
  rw [sampleHash, BadSample]
  cases hlookup : sample.lookup "bitstream_sha256" with
  | none => exact Or.inr ⟨by simp, _, rfl⟩
  | some v =>
    cases v with
    | str s => exact Or.inr ⟨by simp [Json.isStr], _, rfl⟩
    | null | bool | int | float | arr | obj => exact Or.inl ⟨⟨_, rfl, rfl⟩, rfl⟩

theorem sampleHashes_cases (samples : List Dict) :
    ((∃ sample ∈ samples, BadSample sample) ∧
        sampleHashes world samples = .error .attributeError) ∨
      ((¬ ∃ sample ∈ samples, BadSample sample) ∧
        ∃ hashes, sampleHashes world samples = .ok hashes) := by
  induction samples with
  | nil => exact Or.inr ⟨by simp, [], rfl⟩
  | cons sample samples ih =>
    rw [List.exists_mem_cons_iff]
    -- the digests are taken in order, so the first bad sample ends the loop
    rcases sampleHash_cases world sample with ⟨hbad, hhash⟩ | ⟨hgood, hash, hhash⟩
    · exact Or.inl ⟨Or.inl hbad, by rw [sampleHashes, hhash]⟩
    · rcases ih with ⟨hbad, hhashes⟩ | ⟨hnone, hashes, hhashes⟩
      · exact Or.inl ⟨Or.inr hbad, by rw [sampleHashes, hhash, hhashes]⟩
      · exact Or.inr ⟨not_or.mpr ⟨hgood, hnone⟩, hash :: hashes,
          by rw [sampleHashes, hhash, hhashes]⟩

theorem mem_validSamples {samples : List Json} {sample : Dict} :
    sample ∈ validSamples samples ↔
      Json.obj sample ∈ samples ∧ Dict.get sample "valid" = .bool true := by
  rw [validSamples, List.mem_filterMap]
  constructor
  · rintro ⟨v, hv, hsome⟩
    cases v with
    | obj d =>
      simp only [Option.ite_none_right_eq_some, Json.is_some_iff, Option.some.injEq] at hsome
      obtain ⟨hvalid, rfl⟩ := hsome
      exact ⟨hv, hvalid⟩
    | null | bool | int | float | str | arr => cases hsome
  · rintro ⟨hv, hvalid⟩
    exact ⟨_, hv, if_pos (Json.is_some_iff.mpr hvalid)⟩

theorem boardBreaks_iff {d : Dict} {samples : List Json} (h : Dict.get d "samples" = .arr samples) :
    BoardBreaks (.obj d) ↔ ∃ sample ∈ validSamples samples, BadSample sample := by
  constructor
  · rintro ⟨d', samples', sample, hd, hsamples, hmem, hvalid, hbad⟩
    obtain rfl := Json.obj.inj hd
    obtain rfl := Json.arr.inj (h.symm.trans hsamples)
    exact ⟨sample, mem_validSamples.mpr ⟨hmem, hvalid⟩, hbad⟩
  · rintro ⟨sample, hmem, hbad⟩
    obtain ⟨hobj, hvalid⟩ := mem_validSamples.mp hmem
    exact ⟨d, samples, sample, rfl, h, hobj, hvalid, hbad⟩

theorem validateBoard_cases (board : Json) :
    (BoardBreaks board ∧ Raises Uncaught (validateBoard world board)) ∨
      (¬ BoardBreaks board ∧ Completes (validateBoard world board)) := by
  cases board with
  | obj d =>
    rw [validateBoard]
    cases hsamples : Dict.get d "samples" with
    | arr samples =>
      rw [boardBreaks_iff hsamples]
      dsimp only
      rcases sampleHashes_cases world (validSamples samples) with
        ⟨hbad, hhashes⟩ | ⟨hnone, hashes, hhashes⟩
      · exact Or.inl ⟨hbad, by rw [hhashes]; exact ⟨_, rfl, rfl⟩⟩
      · exact Or.inr ⟨hnone, by rw [hhashes]; exact completes_ok _⟩
    | null | bool | int | float | str | obj =>
      refine Or.inr ⟨?_, completes_ok _⟩
      rintro ⟨d', samples', sample, hd, hsamples', -⟩
      obtain rfl := Json.obj.inj hd
      rw [hsamples] at hsamples'
      cases hsamples'
  | null | bool | int | float | str | arr =>
    refine Or.inr ⟨?_, completes_ok _⟩
    rintro ⟨d, samples, sample, hd, -⟩
    cases hd

end Board

/-! ## The summary -/

section Summary

variable {world : World} {baseDir : Option Path} {value : Dict}

theorem summaryHashStage_not_raises (recorded : Json) (path : Path) :
    ¬ Raises Uncaught (summaryHashStage world recorded path) := by
  unfold summaryHashStage
  split
  · split
    · split
      · rename_i e hsha
        exact not_raises_of_caught (sha256File_caught hsha)
      · exact not_raises_ok _
    · exact not_raises_ok _
  · exact not_raises_ok _

theorem asDict_cases (v : Json) :
    (v.isObj = false ∧ asDict v = .error .attributeError) ∨
      (v.isObj = true ∧ ∃ d, asDict v = .ok d) := by
  cases v with
  | obj d => exact Or.inr ⟨rfl, d, rfl⟩
  | null | bool | int | float | str | arr => exact Or.inl ⟨rfl, rfl⟩

/-- One of the two identities is there but is no dictionary. -/
def IdentityBreaks (value summary : Dict) : Prop :=
  (Dict.getObj value "identity").isObj = false ∨ (Dict.getObj summary "identity").isObj = false

theorem identityStage_raises_iff {summary : Dict} {messages : Dict → Dict → List String} :
    Raises Uncaught (identityStage value summary messages) ↔ IdentityBreaks value summary := by
  rw [identityStage, IdentityBreaks]
  rcases asDict_cases (Dict.getObj value "identity") with ⟨hobj, h⟩ | ⟨hobj, own, h⟩
  · rw [h, hobj]
    exact iff_of_true ⟨_, rfl, rfl⟩ (Or.inl rfl)
  · rcases asDict_cases (Dict.getObj summary "identity") with ⟨hobj', h'⟩ | ⟨hobj', other, h'⟩
    · rw [h, h', hobj']
      exact iff_of_true ⟨_, rfl, rfl⟩ (Or.inr rfl)
    · rw [h, h', hobj, hobj']
      simp

theorem summaryConflicts_raises_iff {summary : Dict} {path : Path}
    (hresults : Dict.getObj value "results" = .obj (results value)) :
    Raises Uncaught (summaryConflicts world value summary path) ↔
      Completes (summaryHashStage world (Dict.get (results value) "vivado_summary_sha256") path) ∧
        IdentityBreaks value summary := by
  -- the results are a dictionary here, or the summary would have no path
  rw [summaryConflicts, hresults]
  dsimp only [asDict]
  rw [raises_run_cons, raises_run_cons, raises_run_cons, identityStage_raises_iff]
  simp [summaryHashStage_not_raises, run]

theorem summaryStages_raise_iff {summary : Dict} {path : Path}
    (hresults : Dict.getObj value "results" = .obj (results value))
    (hdecision : ¬ Unhashable (Dict.get value "decision"))
    (hpromotion : ¬ Unhashable (Dict.get value "promotion_level")) :
    Raises Uncaught (run (summaryStages world value summary path)) ↔
      Completes (summaryHashStage world (Dict.get (results value) "vivado_summary_sha256") path) ∧
        IdentityBreaks value summary := by
  have haudit : ¬ Raises Uncaught (summaryAuditStage value summary) := by
    obtain ⟨found, hfound⟩ := inSet_of_hashable hpromotion ["baseline", "final"]
    rw [summaryAuditStage, hfound]
    exact not_raises_ok _
  have hreport : ¬ Raises Uncaught (summaryReportStage value summary) := by
    obtain ⟨found, hfound⟩ := inSet_of_hashable hdecision ["accepted", "final"]
    rw [summaryReportStage, hfound]
    split <;> exact not_raises_ok _
  rw [summaryStages, raises_run_cons, raises_run_cons, raises_run_cons, raises_run_cons,
    summaryConflicts_raises_iff hresults]
  simp [haudit, hreport, run]

/-- A summary that ends the validation. -/
inductive SummaryBreaks (world : World) (baseDir : Option Path) (value : Dict) : Prop
  | tooDeep {path : Path}
      (hpath : summaryPathFor baseDir (Dict.get (results value) "vivado_summary") = some path)
      (hfile : world.isFile path = .ok true) (h : world.loadJson path = .error .recursionError)
  | identity {path : Path} {summary : Dict}
      (hpath : summaryPathFor baseDir (Dict.get (results value) "vivado_summary") = some path)
      (hfile : world.isFile path = .ok true) (hload : world.loadJson path = .ok summary)
      (hhash : Completes
        (summaryHashStage world (Dict.get (results value) "vivado_summary_sha256") path))
      (h : IdentityBreaks value summary)

theorem summaryStage_of_path {path : Path}
    (h : summaryPathFor baseDir (Dict.get (results value) "vivado_summary") = some path) :
    ∃ name, summaryStage world baseDir value = summaryFileStage world value path name := by
  cases hname : Dict.get (results value) "vivado_summary" with
  | str name =>
    rw [hname] at h
    exact ⟨name, by rw [summaryStage, hname, h]⟩
  | null | bool | int | float | arr | obj =>
    rw [hname] at h
    cases h

theorem summaryStage_raises_iff (hdecision : ¬ Unhashable (Dict.get value "decision"))
    (hpromotion : ¬ Unhashable (Dict.get value "promotion_level")) :
    Raises Uncaught (summaryStage world baseDir value) ↔ SummaryBreaks world baseDir value := by
  cases hpath : summaryPathFor baseDir (Dict.get (results value) "vivado_summary") with
  | none =>
    rw [summaryStage, hpath]
    refine iff_of_false (not_raises_ok _) ?_
    rintro (⟨hpath', -, -⟩ | ⟨hpath', -, -, -, -⟩) <;> rw [hpath] at hpath' <;> cases hpath'
  | some path =>
    obtain ⟨name, hstage⟩ : ∃ name,
        summaryStage world baseDir value = summaryFileStage world value path name :=
      summaryStage_of_path hpath
    rw [hstage, summaryFileStage]
    constructor
    · intro hraises
      split at hraises
      · exact absurd hraises (not_raises_of_caught rfl)
      · exact absurd hraises (not_raises_ok _)
      · rename_i hfile
        split at hraises
        · rename_i summary hload
          rw [summaryStages_raise_iff (getObj_results hpath) hdecision hpromotion] at hraises
          exact .identity hpath hfile hload hraises.1 hraises.2
        · rename_i e hload
          split at hraises
          · exact absurd hraises (not_raises_ok _)
          · have he := raises_error_iff.mp hraises
            rw [loadJson_uncaught hload he] at hload
            exact .tooDeep hpath hfile hload
    · rintro (⟨hpath', hfile, hload⟩ | ⟨hpath', hfile, hload, hhash, hidentity⟩)
      · obtain rfl := Option.some.inj (hpath.symm.trans hpath')
        simp only [hfile, hload]
        exact ⟨_, rfl, rfl⟩
      · obtain rfl := Option.some.inj (hpath.symm.trans hpath')
        simp only [hfile, hload]
        rw [summaryStages_raise_iff (getObj_results hpath) hdecision hpromotion]
        exact ⟨hhash, hidentity⟩

end Summary

/-! ## All of them -/

/-- The artifacts and the manifests can be looked at without an error of the file system. -/
structure FilesReadable (world : World) (value : Dict) (baseDir : Option Path) : Prop where
  artifacts : ∀ stage ∈ artifactStages world baseDir value, Completes stage
  sourceManifest : ∃ d, sourceManifest world baseDir value = .ok d
  inputManifest : ∃ d, inputManifest world baseDir value = .ok d

/-- The records that end the validation with an exception that nobody catches.  An error of the
file system that comes first is caught. -/
inductive Crashes (world : World) (value : Dict) (baseDir : Option Path) : Prop
  | unhashable {field : String} (hfield : field ∈ setFields) (h : Unhashable (Dict.get value field))
  | sourceManifest (hartifacts : ∀ stage ∈ artifactStages world baseDir value, Completes stage)
      (h : Audit.sourceManifest world baseDir value = .error .recursionError)
  | inputManifest (hartifacts : ∀ stage ∈ artifactStages world baseDir value, Completes stage)
      (hsource : ∃ d, Audit.sourceManifest world baseDir value = .ok d)
      (h : Audit.inputManifest world baseDir value = .error .recursionError)
  | board (hfiles : FilesReadable world value baseDir) (h : BoardBreaks (Dict.get value "board"))
  | summary (hfiles : FilesReadable world value baseDir) (h : SummaryBreaks world baseDir value)

section Validation

variable {world : World} {value : Dict} {baseDir : Option Path} {known : Option (Finset String)}

theorem promotionStage_not_raises (hpromotion : ¬ Unhashable (Dict.get value "promotion_level"))
    (hevidence : ¬ Unhashable (Dict.get value "evidence_quality")) :
    ¬ Raises Uncaught (promotionStage value) := by
  obtain ⟨formal, hformal⟩ := inSet_of_hashable hpromotion ["baseline", "final"]
  obtain ⟨weak, hweak⟩ := inSet_of_hashable hevidence ["unknown", "sampled", "error"]
  rw [promotionStage, hformal, hweak]
  cases formal <;> exact not_raises_ok _

theorem sourceManifestStage_raises_iff :
    Raises Uncaught (sourceManifestStage world baseDir value) ↔
      sourceManifest world baseDir value = .error .recursionError :=
  raises_iff_of_manifest rfl fun _ => manifestJson_uncaught

theorem inputManifestStage_raises_iff :
    Raises Uncaught (inputManifestStage world baseDir value) ↔
      inputManifest world baseDir value = .error .recursionError :=
  raises_iff_of_manifest rfl fun _ => manifestJson_uncaught

theorem sourceManifestStage_completes_iff :
    Completes (sourceManifestStage world baseDir value) ↔
      ∃ d, sourceManifest world baseDir value = .ok d :=
  completes_iff_of_manifest rfl

theorem inputManifestStage_completes_iff :
    Completes (inputManifestStage world baseDir value) ↔
      ∃ d, inputManifest world baseDir value = .ok d :=
  completes_iff_of_manifest rfl

/-- The stages behind the artifacts, each with what it can raise. -/
theorem laterStages_raise_iff (hpromotion : ¬ Raises Uncaught (promotionStage value)) :
    Raises Uncaught (run (laterStages world value baseDir)) ↔
      sourceManifest world baseDir value = .error .recursionError ∨
      ((∃ d, sourceManifest world baseDir value = .ok d) ∧
        (inputManifest world baseDir value = .error .recursionError ∨
        ((∃ d, inputManifest world baseDir value = .ok d) ∧
          (BoardBreaks (Dict.get value "board") ∨
            Raises Uncaught (summaryStage world baseDir value))))) := by
  rw [laterStages]
  simp only [run, raises_andThen_iff, not_raises_ok, completes_ok, sourceManifestStage_raises_iff,
    sourceManifestStage_completes_iff, inputManifestStage_raises_iff,
    inputManifestStage_completes_iff, hpromotion, false_or, true_and, and_false, or_false]
  rcases validateBoard_cases world (Dict.get value "board") with ⟨hbreaks, hraises⟩ | ⟨hgood, hboard⟩
  · simp only [hbreaks, hraises, true_or]
  · simp only [hgood, hboard, hboard.not_raises, true_and, false_or]

/-- A validation that reaches the artifacts. -/
theorem stages_raise_iff (hhash : ¬ ∃ field ∈ setFields, Unhashable (Dict.get value field)) :
    Raises Uncaught (run (stages world value baseDir known)) ↔
      (∀ stage ∈ artifactStages world baseDir value, Completes stage) ∧
        Raises Uncaught (run (laterStages world value baseDir)) := by
  have hmembers : ¬ Raises Uncaught (run (memberStages value)) := fun h =>
    hhash (memberStages_raise_iff.mp h)
  rw [stages, raises_run_cons, raises_run_append, raises_run_cons, raises_run_append]
  simp only [not_raises_ok, completes_ok, hmembers, artifactStages_not_raise, false_or, true_and,
    and_iff_right_iff_imp]
  exact fun _ => memberStages_complete hhash

theorem validation_raises_iff :
    Raises Uncaught (validateSidecar world value baseDir known) ↔ Crashes world value baseDir := by
  rw [validateSidecar]
  -- an unhashable field ends the run before the first file is looked at
  by_cases hhash : ∃ field ∈ setFields, Unhashable (Dict.get value field)
  · obtain ⟨field, hfield, hunhashable⟩ := hhash
    refine iff_of_true ?_ (.unhashable hfield hunhashable)
    have hmembers := memberStages_raise_iff.mpr ⟨field, hfield, hunhashable⟩
    rw [stages, raises_run_cons, raises_run_append]
    exact Or.inr ⟨completes_ok _, Or.inl hmembers⟩
  · have hfield : ∀ field ∈ setFields, ¬ Unhashable (Dict.get value field) := fun field hmem h =>
      hhash ⟨field, hmem, h⟩
    have hpromotion := hfield "promotion_level" (by simp [setFields])
    rw [stages_raise_iff hhash, laterStages_raise_iff (promotionStage_not_raises hpromotion
      (hfield "evidence_quality" (by simp [setFields]))),
      summaryStage_raises_iff (hfield "decision" (by simp [setFields])) hpromotion]
    constructor
    · rintro ⟨hartifacts, hsource | ⟨hsource, hinput | ⟨hinput, hboard | hsummary⟩⟩⟩
      · exact .sourceManifest hartifacts hsource
      · exact .inputManifest hartifacts hsource hinput
      · exact .board ⟨hartifacts, hsource, hinput⟩ hboard
      · exact .summary ⟨hartifacts, hsource, hinput⟩ hsummary
    · rintro (⟨hmem, hunhashable⟩ | ⟨hartifacts, hsource⟩ | ⟨hartifacts, hsource, hinput⟩ |
        ⟨hfiles, hboard⟩ | ⟨hfiles, hsummary⟩)
      · exact absurd ⟨_, hmem, hunhashable⟩ hhash
      · exact ⟨hartifacts, Or.inl hsource⟩
      · exact ⟨hartifacts, Or.inr ⟨hsource, Or.inl hinput⟩⟩
      · exact ⟨hfiles.artifacts,
          Or.inr ⟨hfiles.sourceManifest, Or.inr ⟨hfiles.inputManifest, Or.inl hboard⟩⟩⟩
      · exact ⟨hfiles.artifacts,
          Or.inr ⟨hfiles.sourceManifest, Or.inr ⟨hfiles.inputManifest, Or.inr hsummary⟩⟩⟩

end Validation

/-! ## The commands -/

section Commands

variable (world : World)

/-- The `except` clause of both commands: what it catches is an error of the file. -/
def reported : Except Exn (List String) → Except Exn (List String)
  | .error e => if e.caught then .ok [e.text] else .error e
  | .ok errors => .ok errors

def fileErrors (path : Path) (known : Option (Finset String)) : Except Exn (List String) :=
  reported (world.loadJson path >>= (validateSidecar world · (some path.parent) known))

def jsonReport (path : Path) (valid : Bool) (errors : List String) : Dict :=
  [("path", .str path.text), ("schema", .str "jyd-optimization-iteration-sidecar"),
    ("schema_version", .int 2), ("valid", .bool valid), ("errors", .arr (errors.map .str))]

/-- The report that is printed and the exit status. -/
def commandValidate (sidecar : Path) : Except Exn (Dict × ℕ) :=
  (fileErrors world sidecar none).map fun errors =>
    (jsonReport sidecar errors.isEmpty errors, if errors.isEmpty then 0 else 2)

structure Index where
  entries : List Json
  failures : List String
  seenIds : Finset String

/-- One file of the loop of `command_build_index`. -/
def indexFile (indexEntry : Path → Dict → Except Exn Json) (index : Index) (path : Path) :
    Except Exn Index := do
  let errors ← fileErrors world path (some index.seenIds)
  let failures := index.failures ++ errors.map (path.text ++ ": " ++ ·)
  match world.loadJson path with
  | .error _ => return { index with failures }
  | .ok value =>
    let seenIds := idsAfter value index.seenIds
    if errors.isEmpty then
      let entry ← indexEntry path value
      return ⟨index.entries ++ [entry], failures, seenIds⟩
    else return ⟨index.entries, failures, seenIds⟩

/-- A file that ends the command that looks at it. -/
def FileCrashes (path : Path) : Prop :=
  world.loadJson path = .error .recursionError ∨
    ∃ value, world.loadJson path = .ok value ∧ Crashes world value (some path.parent)

variable {world} {path : Path}

theorem reported_returns_iff {result : Except Exn (List String)} :
    (∃ errors, reported result = .ok errors) ↔ Reports result := by
  cases result with
  | ok errors => simp [reported, Reports]
  | error e => cases he : e.caught <;> simp [reported, Reports, he]

theorem fileErrors_returns_iff (known : Option (Finset String)) :
    (∃ errors, fileErrors world path known = .ok errors) ↔ ¬ FileCrashes world path := by
  rw [fileErrors, reported_returns_iff, FileCrashes]
  cases hload : world.loadJson path with
  | error e =>
    show e.caught = true ↔ _
    cases he : e.caught with
    | true =>
      have hne : e ≠ .recursionError := by
        rintro rfl
        cases he
      simp [hne]
    | false =>
      obtain rfl := loadJson_uncaught hload he
      simp
  | ok value =>
    show Reports (validateSidecar world value (some path.parent) known) ↔ _
    rw [reports_iff, validation_raises_iff]
    simp

variable {indexEntry : Path → Dict → Except Exn Json}
  (hentry : ∀ path value, ∃ entry, indexEntry path value = .ok entry)

include hentry

theorem indexFile_returns_iff (index : Index) :
    (∃ next, indexFile world indexEntry index path = .ok next) ↔ ¬ FileCrashes world path := by
  rw [← fileErrors_returns_iff (some index.seenIds), indexFile]
  cases fileErrors world path (some index.seenIds) with
  | error e => simp [bind, Except.bind]
  | ok errors =>
    refine iff_of_true ?_ ⟨errors, rfl⟩
    cases world.loadJson path with
    | error e => exact ⟨_, rfl⟩
    | ok value =>
      obtain ⟨entry, h⟩ := hentry path value
      cases errors <;> simp [bind, Except.bind, h, pure, Except.pure]

/-- The loop goes on to its end unless a file ends it. -/
theorem indexFiles_return_iff {paths : List Path} {index : Index} :
    (∃ last, paths.foldlM (indexFile world indexEntry) index = .ok last) ↔
      ∀ path ∈ paths, ¬ FileCrashes world path := by
  induction paths generalizing index with
  | nil => simp [pure, Except.pure]
  | cons path paths ih =>
    rw [List.foldlM_cons, List.forall_mem_cons, ← indexFile_returns_iff hentry index]
    cases indexFile world indexEntry index path with
    | error e => simp [bind, Except.bind]
    | ok next => simpa [bind, Except.bind] using ih

end Commands

/-- The validation returns its messages, or an error that the callers catch, for every record but
those listed.  Every other file is reported by `command_validate`, and `command_build_index`, if
it can make the entries, comes to the end of its files. -/
theorem validateSidecar_reports_iff (world : World) :
    (∀ value baseDir known,
      Reports (validateSidecar world value baseDir known) ↔ ¬ Crashes world value baseDir) ∧
    (∀ sidecar, (∃ report, commandValidate world sidecar = .ok report) ↔
      ¬ FileCrashes world sidecar) ∧
    ∀ (paths : List Path) (indexEntry : Path → Dict → Except Exn Json),
      (∀ path value, ∃ entry, indexEntry path value = .ok entry) →
        ((∃ index, paths.foldlM (indexFile world indexEntry) ⟨[], [], ∅⟩ = .ok index) ↔
          ∀ path ∈ paths, ¬ FileCrashes world path) := by
  refine ⟨fun value baseDir known => ?_, fun sidecar => ?_, fun paths indexEntry hentry => ?_⟩
  · rw [reports_iff, validation_raises_iff]
  · rw [← fileErrors_returns_iff none, commandValidate]
    cases fileErrors world sidecar none <;> simp [Except.map]
  · exact indexFiles_return_iff hentry

/-- A list as the status ends the validation: the membership test hashes it. -/
theorem list_status_crashes :
    validateSidecar World.empty [("status", .arr [])] none none = .error .typeError ∧
      ¬ Reports (validateSidecar World.empty [("status", .arr [])] none none) := by
  have herror :
      validateSidecar World.empty [("status", .arr [])] none none = .error .typeError := rfl
  rw [herror]
  exact ⟨rfl, Bool.false_ne_true⟩

end Audit
end Jyd
