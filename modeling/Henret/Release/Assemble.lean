import Henret.Release.GateRun

/-!
# Assembling a release manifest

The generator reads the gate records, refuses what its profile does not allow,
and writes down the state of the checkout and of the hosted run.  Where it is
given a path, it renders the gate summary there and records its digest.  The
records it lets through are the ones the verifier has no complaint about.
-/

namespace Henret.Release.Assemble

open Outcome PyJson PyStr Verify

/-- A `SystemExit` with its message, or an exception that is not handled. -/
inductive Stop where
  | raised (e : Raised)
  | exit (message : Str)
deriving DecidableEq

/-- What Git says of a work tree: the commit and the lines of its status. -/
structure Checkout where
  commit : Str
  status : List Str

/-- The surroundings of a run; `strip` is the string method without arguments, and
`write` the bytes that writing a text to a path leaves there. -/
structure Process where
  environ : Str → Option Str
  file : Str → Option (List UInt8)
  checkout : Option Checkout
  timestamp : Str
  platform : Str
  strip : Str → Str
  write : Str → Str → Except Raised (List UInt8)

/-- The manifest that a run prints and the gate summary that it writes, if any. -/
structure Artifacts where
  manifest : Fields
  gateRun : Option (List UInt8)

def ciCoreProfile : Str := lit "ci-core-v1"

def advisoryIds : List (ℤ × Str) :=
  [(2, lit "demo regression scenarios"), (4, lit "golden conformance suite")]

def policyFiles : List Str :=
  [lit "check.sh", lit "check_selftest.py", lit "axiom_audit.py", lit "doc_symbol_check.py",
   lit "doc_count_check.py", lit "native_decide_check.py", lit "markdown_link_check.py",
   lit "rfc_metadata_check.py", lit "forbidden_claim_check.py", lit "warning_budget.py",
   lit "helper_usage_check.py", lit "extract_model_docs.py", lit "extract_theorem_docs.py",
   lit "extract_rfc_index.py", lit "source_archive.py", lit "release_publish_preflight.py",
   lit "verify_release_manifest.py", lit "gate_registry.py", lit "explorer_result.py",
   lit "release_manifest.py", lit "ci_supply_chain.py", lit "install_ci_tool.py"]

def dirtyIgnore : List Str :=
  [lit "release/", lit ".lake/", lit "__pycache__", lit "docs/book/", lit ".elan/",
   lit ".cache/", lit "elan-init", lit "elan.tar.gz"]

/-- The fields of the hosted run and the variables they are read from. -/
def hostedVars : List (Str × Str) :=
  [(lit "repository", lit "GITHUB_REPOSITORY"), (lit "run_id", lit "GITHUB_RUN_ID"),
   (lit "run_attempt", lit "GITHUB_RUN_ATTEMPT"), (lit "ref", lit "GITHUB_REF"),
   (lit "sha", lit "GITHUB_SHA"), (lit "workflow_ref", lit "GITHUB_WORKFLOW_REF"),
   (lit "workflow_sha", lit "GITHUB_WORKFLOW_SHA"),
   (lit "runner_environment", lit "RUNNER_ENVIRONMENT"), (lit "runner_name", lit "RUNNER_NAME"),
   (lit "runner_os", lit "RUNNER_OS"), (lit "runner_arch", lit "RUNNER_ARCH"),
   (lit "image_os", lit "ImageOS"), (lit "image_version", lit "ImageVersion")]

/-! ## Gate records -/

def isAdvisory (id : Json) : Bool :=
  advisoryIds.any fun advisory ↦ id.same (.int advisory.1)

def criticality (profile : Str) (gate : Fields) : Except Stop Str :=
  if profile = ciCoreProfile then do
    raiseIf (¬ (gate.get (lit "id")).hashable = true) (.raised .typeError)
    return if isAdvisory (gate.get (lit "id")) then lit "advisory" else lit "required"
  else return lit "required"

/-- `g["criticality"] = ...`. -/
def stamp (profile : Str) : Json → Except Stop Fields
  | .obj gate => do
      let value ← criticality profile gate
      return Fields.set gate (lit "criticality") (.str value)
  | _ => throw (.raised (if profile = ciCoreProfile then .attributeError else .typeError))

def notRun (advisory : ℤ × Str) : Fields :=
  [(lit "id", .int advisory.1), (lit "name", .str advisory.2),
   (lit "criticality", text "advisory"), (lit "status", text "not_run_in_release_core"),
   (lit "reason", text
     "advisory executable validation; runs in the release-validation workflow (RFC 097)")]

def addAdvisory (profile : Str) (gates : List Fields) : List Fields :=
  if profile = ciCoreProfile then
    gates ++ (advisoryIds.filter fun advisory ↦
      !gates.any fun gate ↦ (gate.get (lit "id")).same (.int advisory.1)).map notRun
  else gates

section Contract

variable (T : PyText) (profile : Str) (contract : Contract) (gates : List Fields)

def checkIds : Except Stop Unit := do
  let ids := gates.map fun gate ↦ gate.get (lit "id")
  let expectedIds := contract.gates.map Prod.fst
  let integerIds := ids.filterMap intOf
  raiseIf (¬ ids.all Json.isInt = true)
    (.exit (lit "release_manifest: " ++ profile ++ lit " gate IDs must be integers; observed " ++
      T.str (.arr ids)))
  raiseIf (ids.length ≠ (Json.distinct ids).length ∨
      ¬ ((∀ n ∈ integerIds, n ∈ expectedIds) ∧ ∀ n ∈ expectedIds, n ∈ integerIds))
    (.exit (lit "release_manifest: " ++ profile ++ lit " requires exactly gate IDs " ++
      T.str (intList expectedIds) ++ lit "; observed " ++ T.str (.arr ids)))

def checkStatus : Except Stop Unit :=
  raiseIf (gates.any (fun gate ↦ !(gate.get (lit "status")).eq (.str (lit "pass"))) = true)
    (.exit (lit "release_manifest: " ++ profile ++ lit " contains a non-pass gate"))

def checkEvidence (gate : Fields) : Except Stop Unit :=
  match contract.gates.find? fun expected ↦ (gate.get (lit "id")).same (.int expected.1) with
  | none => return ()
  | some expected =>
      raiseIf (¬ (gate.get (lit "evidence_id")).eq (.str expected.2) = true)
        (.exit (lit "release_manifest: gate " ++ T.str (gate.get (lit "id")) ++
          lit " evidence_id " ++ T.repr (gate.get (lit "evidence_id")) ++ lit " != " ++
          T.repr (.str expected.2)))

def checkExplorer : Except Stop Unit :=
  match gates.find? fun gate ↦ (gate.get (lit "id")).eq (.int 11) with
  | none => return ()
  | some explorer =>
      (validateManifestEvidence T (explorer.get (lit "parameters"))
        (explorer.get (lit "result"))).mapError fun exc ↦
          .exit (lit "release_manifest: invalid v3 explorer evidence: " ++ exc)

def checkContract : Except Stop Unit :=
  match profiles.lookup profile with
  | none => return ()
  | some contract => do
      checkIds T profile contract gates
      checkStatus profile gates
      if hasEvidence profile then do
        gates.forM (checkEvidence T contract)
        checkExplorer T gates
      else return ()

end Contract

def assembleGates (T : PyText) (profile : Str) (records : List Json) :
    Except Stop (List Fields) := do
  let stamped ← records.mapM (stamp profile)
  let gates := addAdvisory profile stamped
  checkContract T profile gates
  return gates

def requiredGatesPassed (gates : List Fields) : Bool :=
  (gates.filter fun gate ↦ (gate.get (lit "criticality")).eq (.str (lit "required"))).all
    fun gate ↦ (gate.get (lit "status")).eq (.str (lit "pass"))

/-! ## The state of the checkout and of the run -/

section Surroundings

variable (L : Library) (P : Process)

def releaseProfile : Str := (P.environ (lit "HENRET_RELEASE_PROFILE")).getD (lit "full")

/-- `os.environ.get("GITHUB_ACTIONS") == "true"`. -/
def OnActions : Prop := P.environ (lit "GITHUB_ACTIONS") = some (lit "true")

instance : Decidable (OnActions P) := inferInstanceAs (Decidable (_ = _))

/-- `path.strip('"')`. -/
def unquote (path : Str) : Str :=
  (path.dropWhile fun c ↦ c = CodePoint.ofChar '"').rdropWhile fun c ↦ c = CodePoint.ofChar '"'

/-- Only untracked files are ever excused. -/
def excusable (strip : Str → Str) (line : Str) : Bool :=
  let path := unquote (strip (line.drop 3))
  decide (line.take 2 = lit "??") &&
    ((lit ".pyc").isSuffixOf path || dirtyIgnore.any fun seg ↦ contains path seg)

def dirtyPaths (strip : Str → Str) (checkout : Checkout) : List Str :=
  (checkout.status.filter fun line ↦ decide (strip line ≠ []) && !excusable strip line).map
    (List.drop 3)

/-- The digest of a file, if it exists. -/
def sha256File (path : Str) : Json :=
  match P.file path with
  | some bytes => .str (L.sha256 bytes)
  | none => .null

def policyKey (file : Str) : Str :=
  (file.map fun c ↦
    if c = CodePoint.ofChar '.' ∨ c = CodePoint.ofChar '-' then CodePoint.ofChar '_' else c) ++
    lit "_sha256"

def gatePolicy : Fields :=
  policyFiles.map (fun file ↦ (policyKey file, sha256File L P (lit "scripts/" ++ file))) ++
    [(rfc104PolicyHashKey, sha256File L P policyPath)]

/-- The digest of the policy beside the policy's own entries. -/
def supplyBlock (hash : Json) (policy : Fields) : Fields :=
  policy.foldl (fun block entry ↦ Fields.set block entry.1 entry.2) [(lit "policy_sha256", hash)]

def readPolicy : Except Stop Fields :=
  match P.file policyPath with
  | none => throw (.raised .osError)
  | some bytes =>
      match L.loads bytes with
      | .error _ => throw (.raised .valueError)
      | .ok (.obj policy) => return policy
      | .ok _ => throw (.raised .typeError)

def environJson (key : Str) : Json :=
  match P.environ key with
  | some value => .str value
  | none => .null

def hostedCi : Json :=
  if OnActions P then .obj (hostedVars.map fun var ↦ (var.1, environJson P var.2)) else .null

def runner : Str :=
  if OnActions P then lit "github-actions" else (P.environ (lit "RUNNER_NAME")).getD (lit "local")

def gateRegistry (profile : Str) : Str :=
  match profiles.lookup profile with
  | some contract => contract.registry
  | none => lit "rfc097-ci-core-v1"

/-- `commit`, `dirty`, `dirty_paths` and `local_precheck`. -/
structure Provenance where
  commit : Json
  dirty : Bool
  dirtyPaths : List Str
  localPrecheck : Bool

def provenance : Provenance :=
  match P.checkout with
  | some checkout =>
      ⟨.str checkout.commit, dirtyPaths P.strip checkout ≠ [], dirtyPaths P.strip checkout,
        ¬ OnActions P⟩
  | none => ⟨.null, false, [], true⟩

def runtimePackage : Json :=
  .obj [(lit "included", .bool false), (lit "version_or_commit", .null),
    (lit "verified_by_this_tarball", .bool false),
    (lit "evidence_ledger", text "docs/evidence-ledger.yaml"),
    (lit "evidence", .str (lit "Out-of-tree sibling package; runtime claims carry " ++
      lit "verified_by_this_tarball=false in the evidence ledger (RFC 081)."))]

def sourceArchive (tarball : Str) : Json :=
  .obj [(lit "name", .str (pathName tarball)), (lit "sha256", sha256File L P tarball),
    (lit "size_bytes", match P.file tarball with
      | some bytes => .int bytes.length
      | none => .null)]

def manifest (profile version tarball : Str) (gates : List Fields) (policy : Fields) : Fields :=
  [(lit "manifest_schema", .int 1),
   (lit "generated_by", text "scripts/check.sh --release-core"),
   (lit "package", text "henret"),
   (lit "version", .str version),
   (lit "gate_registry", .str (gateRegistry profile)),
   (lit "release_profile", .str profile),
   (lit "required_gates_passed", .bool (requiredGatesPassed gates)),
   (lit "timestamp_utc", .str P.timestamp),
   (lit "git_commit", (provenance P).commit),
   (lit "git_dirty", .bool (provenance P).dirty),
   (lit "git_dirty_paths", .arr ((provenance P).dirtyPaths.map .str)),
   (lit "local_precheck", .bool (provenance P).localPrecheck),
   (lit "tarball_sha256", sha256File L P tarball),
   (lit "source_archive", sourceArchive L P tarball),
   (lit "lake_manifest_sha256", sha256File L P (lit "lake-manifest.json")),
   (lit "lean_toolchain_sha256", sha256File L P (lit "lean-toolchain")),
   (lit "os", .str P.platform),
   (lit "runner", .str (runner P)),
   (lit "hosted_ci", hostedCi P),
   (lit "gate_policy", .obj (gatePolicy L P)),
   (lit "supply_chain", .obj (supplyBlock (sha256File L P policyPath) policy)),
   (lit "gates", .arr (gates.map .obj)),
   (lit "validation_reports", .arr []),
   (lit "runtime_package", runtimePackage)]

def humanSummary (path : Str) (bytes : List UInt8) : Json :=
  .obj [(lit "name", .str (pathName path)), (lit "sha256", .str (L.sha256 bytes))]

/-- The summary is rendered before the manifest names it. -/
def summarise (T : PyText) (m : Fields) (path : Str) : Except Raised Artifacts := do
  let text ← GateRun.renderGateRun T m
  let bytes ← P.write path text
  return ⟨Fields.set m (lit "human_summary") (humanSummary L path bytes), some bytes⟩

/-- A run of the script; `gateRunPath` is empty where no path is given. -/
def assemble (T : PyText) (records : List Json) (version tarball gateRunPath : Str) :
    Except Stop Artifacts := do
  let gates ← assembleGates T (releaseProfile P) records
  let policy ← readPolicy L P
  let m := manifest L P (releaseProfile P) version tarball gates policy
  if gateRunPath = [] then return ⟨m, none⟩
  else (summarise L P T m gateRunPath).mapError .raised

end Surroundings

/-! ## The gates that are let through -/

section Gates

variable {T : PyText} {profile : Str} {contract : Contract} {records : List Json}
  {gates : List Fields}

/-- A record as a versioned profile writes it down. -/
def asRequired (record : Fields) : Fields := Fields.set record (lit "criticality") (text "required")

theorem asRequired_getD (record : Fields) (d : Json) {key : Str} (hkey : key ≠ lit "criticality") :
    (asRequired record).getD key d = record.getD key d := by
  rw [asRequired, Fields.getD, Fields.getD, Fields.lookup_set_of_ne record _ hkey]

theorem asRequired_get (record : Fields) {key : Str} (hkey : key ≠ lit "criticality") :
    (asRequired record).get key = record.get key :=
  asRequired_getD record .null hkey

theorem asRequired_criticality (record : Fields) :
    (asRequired record).get (lit "criticality") = .str (lit "required") :=
  Fields.get_set_self record _ _

theorem ne_ciCoreProfile (hcontract : (profile, contract) ∈ profiles) :
    profile ≠ ciCoreProfile ∧ profiles.lookup profile = some contract ∧
      (hasEvidence profile = true → (11 : ℤ) ∈ contract.gates.map Prod.fst) := by
  have hregistry : ∀ entry ∈ profiles, entry.1 ≠ ciCoreProfile ∧
      profiles.lookup entry.1 = some entry.2 ∧
      (hasEvidence entry.1 = true → (11 : ℤ) ∈ entry.2.gates.map Prod.fst) := by
    decide +kernel
  exact hregistry _ hcontract

theorem stamp_ok_iff (hprofile : profile ≠ ciCoreProfile) {record : Json} {gate : Fields} :
    stamp profile record = .ok gate ↔ ∃ fields, record = .obj fields ∧ gate = asRequired fields := by
  cases record with
  | obj fields =>
      simp only [stamp, criticality, if_neg hprofile, bind_ok_iff, pure_ok_iff, Json.obj.injEq]
      constructor
      · rintro ⟨_, rfl, rfl⟩
        exact ⟨fields, rfl, rfl⟩
      · rintro ⟨_, rfl, rfl⟩
        exact ⟨_, rfl, rfl⟩
  | _ => simp [stamp, throw, throwThe, MonadExceptOf.throw]

theorem mapM_stamp_ok (hprofile : profile ≠ ciCoreProfile)
    (h : records.mapM (stamp profile) = .ok gates) :
    ∃ dicts : List Fields, records = dicts.map .obj ∧ gates = dicts.map asRequired := by
  induction records generalizing gates with
  | nil =>
      cases h
      exact ⟨[], rfl, rfl⟩
  | cons record records ih =>
      rw [List.mapM_cons, bind_ok_iff] at h
      obtain ⟨gate, hgate, hrest⟩ := h
      obtain ⟨rest, hrecords, heq⟩ := bind_ok_iff.mp hrest
      cases heq
      obtain ⟨fields, rfl, rfl⟩ := (stamp_ok_iff hprofile).mp hgate
      obtain ⟨dicts, rfl, rfl⟩ := ih hrecords
      exact ⟨fields :: dicts, rfl, rfl⟩

/-- What the generator has checked of the gates of a versioned profile. -/
structure Admitted (T : PyText) (profile : Str) (contract : Contract) (gates : List Fields) :
    Prop where
  distinct : (gates.map fun gate ↦ gate.get (lit "id")).length =
    (Json.distinct (gates.map fun gate ↦ gate.get (lit "id"))).length
  ids : ∃ ns : List ℤ, gates.map (fun gate ↦ gate.get (lit "id")) = ns.map .int ∧
    ∀ n, n ∈ ns ↔ n ∈ contract.gates.map Prod.fst
  status : ∀ gate ∈ gates, gate.get (lit "status") = .str (lit "pass")
  evidence : hasEvidence profile = true → ∀ gate ∈ gates, checkEvidence T contract gate = .ok ()
  explorer : hasEvidence profile = true → checkExplorer T gates = .ok ()

theorem checkIds_ok (h : checkIds T profile contract gates = .ok ()) :
    (gates.map fun gate ↦ gate.get (lit "id")).length =
      (Json.distinct (gates.map fun gate ↦ gate.get (lit "id"))).length ∧
    ∃ ns : List ℤ, gates.map (fun gate ↦ gate.get (lit "id")) = ns.map .int ∧
      ∀ n, n ∈ ns ↔ n ∈ contract.gates.map Prod.fst := by
  simp only [checkIds, bind_ok_iff, raiseIf_ok_iff, not_not, not_or, exists_const] at h
  obtain ⟨hints, hlen, hset⟩ := h
  obtain ⟨ns, hns⟩ := Json.exists_ints hints
  rw [hns, filterMap_intOf] at hset
  refine ⟨hlen, ns, hns, fun n ↦ ⟨hset.1 n, hset.2 n⟩⟩

theorem checkStatus_ok (h : checkStatus profile gates = .ok ()) :
    ∀ gate ∈ gates, gate.get (lit "status") = .str (lit "pass") := by
  rw [checkStatus, raiseIf_ok_iff, Bool.not_eq_true, List.any_eq_false] at h
  intro gate hgate
  have hpass := h gate hgate
  rwa [Bool.not_eq_true, Bool.not_eq_false', Json.eq_str] at hpass

theorem assembleGates_ok (hcontract : (profile, contract) ∈ profiles)
    (h : assembleGates T profile records = .ok gates) :
    Admitted T profile contract gates ∧
      ∃ dicts : List Fields, records = dicts.map .obj ∧ gates = dicts.map asRequired := by
  obtain ⟨hprofile, hlookup, -⟩ := ne_ciCoreProfile hcontract
  simp only [assembleGates, addAdvisory, if_neg hprofile, bind_ok_iff, pure_ok_iff] at h
  obtain ⟨stamped, hstamped, ⟨⟩, hcheck, rfl⟩ := h
  simp only [checkContract, hlookup, bind_ok_iff] at hcheck
  obtain ⟨⟨⟩, hids, ⟨⟩, hstatus, hevidence⟩ := hcheck
  obtain ⟨hdistinct, hns⟩ := checkIds_ok hids
  refine ⟨⟨hdistinct, hns, checkStatus_ok hstatus, ?_, ?_⟩, mapM_stamp_ok hprofile hstamped⟩
  · intro hhas
    rw [if_pos hhas, bind_ok_iff] at hevidence
    obtain ⟨⟨⟩, heach, -⟩ := hevidence
    exact forM_ok_iff.mp heach
  · intro hhas
    rw [if_pos hhas, bind_ok_iff] at hevidence
    obtain ⟨⟨⟩, -, hexplorer⟩ := hevidence
    exact hexplorer

/-! ## Why the verifier has no complaint about them -/

theorem Admitted.idErrors_eq_nil (h : Admitted T profile contract gates) :
    idErrors T profile contract (gates.map fun gate ↦ gate.get (lit "id")) = [] := by
  obtain ⟨ns, hns, hexact⟩ := h.ids
  have hints : (gates.map fun gate ↦ gate.get (lit "id")).all Json.isInt = true := by
    rw [hns, List.all_map, List.all_eq_true]
    intro n _
    rfl
  have hmissing : (contract.gates.map Prod.fst).filter (fun n ↦ decide (n ∉ ns)) = [] := by
    rw [List.filter_eq_nil_iff]
    intro n hn
    simpa using (hexact n).mpr hn
  have hextra : ns.dedup.filter (fun n ↦ decide (n ∉ contract.gates.map Prod.fst)) = [] := by
    rw [List.filter_eq_nil_iff]
    intro n hn
    rw [decide_eq_true_eq, not_not]
    exact (hexact n).mp (List.mem_dedup.mp hn)
  have hlen := h.distinct
  rw [hns] at hints hlen ⊢
  simp only [idErrors, filterMap_intOf, List.append_eq_nil_iff, report_eq_nil_iff, hints, hmissing,
    hextra, hlen]
  simp

theorem Admitted.eq_of_id (h : Admitted T profile contract gates) {gate gate' : Fields}
    (hgate : gate ∈ gates) (hgate' : gate' ∈ gates)
    (hid : gate.get (lit "id") = gate'.get (lit "id")) : gate = gate' := by
  obtain ⟨ns, hns, -⟩ := h.ids
  have hdistinct := h.distinct
  rw [hns] at hdistinct
  have hnodup : (gates.map fun gate ↦ gate.get (lit "id")).Nodup := by
    rw [hns]
    exact (Json.nodup_of_length_distinct hdistinct).map fun a b hab ↦ by simpa using hab
  exact List.inj_on_of_nodup_map hnodup hgate hgate' hid

theorem Admitted.exists_id (h : Admitted T profile contract gates) {gate : Fields}
    (hgate : gate ∈ gates) :
    ∃ n, gate.get (lit "id") = .int n ∧ n ∈ contract.gates.map Prod.fst := by
  obtain ⟨ns, hns, hexact⟩ := h.ids
  have hmem : gate.get (lit "id") ∈ ns.map Json.int := by
    rw [← hns]
    exact List.mem_map_of_mem hgate
  obtain ⟨n, hn, hint⟩ := List.mem_map.mp hmem
  exact ⟨n, hint.symm, (hexact n).mp hn⟩

theorem Admitted.gateErrors_eq_nil (h : Admitted T profile contract gates) {gate : Fields}
    (hgate : gate ∈ gates) (hrequired : gate.get (lit "criticality") = .str (lit "required")) :
    gateErrors T profile contract gate = [] := by
  obtain ⟨n, hid, hn⟩ := h.exists_id hgate
  obtain ⟨e, hfind, -⟩ := find?_same hn
  rw [gateErrors, hid]
  simp only [hfind, List.append_eq_nil_iff, report_eq_nil_iff, Bool.not_eq_false', Json.eq_str,
    Bool.and_eq_false_iff]
  refine ⟨⟨hrequired, h.status gate hgate⟩, ?_⟩
  by_cases hhas : hasEvidence profile = true
  · right
    have hevidence := h.evidence hhas gate hgate
    rw [checkEvidence, hid] at hevidence
    simp only [hfind, raiseIf_ok_iff, not_not, Json.eq_str] at hevidence
    exact hevidence
  · left
    exact Bool.eq_false_of_not_eq_true hhas

theorem Admitted.requiredGatesPassed (h : Admitted T profile contract gates) :
    requiredGatesPassed gates = true := by
  rw [Assemble.requiredGatesPassed, List.all_eq_true]
  intro gate hgate
  exact Json.eq_str.mpr (h.status gate (List.mem_of_mem_filter hgate))

/-- The timing and the output digest of the explorer's record. -/
def Timed (T : PyText) (gate : Fields) : Prop :=
  isDuration (gate.get (lit "duration_ms")) = true ∧
    fullHex 64 (T.str (gate.getD (lit "stdout_sha256") (.str []))) = true

theorem timed_asRequired {record : Fields} : Timed T (asRequired record) ↔ Timed T record := by
  rw [Timed, Timed, asRequired_get record (by decide),
    asRequired_getD record _ (by simp [lit])]

theorem Admitted.explorerErrors_eq_nil_iff (h : Admitted T profile contract gates)
    (hcontract : (profile, contract) ∈ profiles) (hhas : hasEvidence profile = true) :
    explorerErrors T profile gates = [] ↔
      ∀ gate ∈ gates, gate.get (lit "id") = .int 11 → Timed T gate := by
  obtain ⟨ns, hns, hexact⟩ := h.ids
  have heleven : Json.int 11 ∈ gates.map fun gate ↦ gate.get (lit "id") := by
    rw [hns]
    exact List.mem_map_of_mem ((hexact 11).mpr ((ne_ciCoreProfile hcontract).2.2 hhas))
  have hchecked := h.explorer hhas
  rw [checkExplorer] at hchecked
  rw [explorerErrors]
  cases hfind : gates.find? fun gate ↦ (gate.get (lit "id")).eq (.int 11) with
  | none =>
      obtain ⟨gate, hgate, hid⟩ := List.mem_map.mp heleven
      have hno := List.find?_eq_none.mp hfind gate hgate
      rw [hid] at hno
      exact absurd (Json.eq_int.mpr rfl) hno
  | some explorer =>
      have hmem := List.mem_of_find?_eq_some hfind
      have hid : explorer.get (lit "id") = .int 11 := by
        obtain ⟨n, hn, -⟩ := h.exists_id hmem
        have heq := List.find?_some hfind
        rw [hn, Json.eq_int] at heq
        rw [hn, heq]
      rw [hfind] at hchecked
      have hvalid := mapError_ok_iff.mp hchecked
      simp only [hvalid, List.nil_append, List.append_eq_nil_iff, report_eq_nil_iff,
        Bool.not_eq_false']
      constructor
      · intro htimed gate hgate hgateId
        rw [h.eq_of_id hgate hmem (hgateId.trans hid.symm)]
        exact htimed
      · intro htimed
        exact htimed explorer hmem hid

end Gates

end Henret.Release.Assemble
