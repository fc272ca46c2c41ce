import Henret.Release.Assemble

/-!
# Which assembled manifests are accepted

The generator leaves to the verifier what a local run may lack: the clean
checkout, the hosted run and the policy.  A run that has them publishes a
manifest that the verifier accepts beside the archive of its commit.
-/

namespace Henret.Release.Assemble

open Outcome PyJson PyStr Verify

/-! ## The fields of a manifest -/

section Manifest

variable {T : PyText} {L : Library} {P : Process} {profile version tarball : Str}
  {contract : Contract} {records : List Json} {gates : List Fields} {policy m : Fields}

def manifestKeys : {keys : List Str // keys.Nodup} :=
  ⟨[lit "manifest_schema", lit "generated_by", lit "package", lit "version", lit "gate_registry",
   lit "release_profile", lit "required_gates_passed", lit "timestamp_utc", lit "git_commit",
   lit "git_dirty", lit "git_dirty_paths", lit "local_precheck", lit "tarball_sha256",
   lit "source_archive", lit "lake_manifest_sha256", lit "lean_toolchain_sha256", lit "os",
   lit "runner", lit "hosted_ci", lit "gate_policy", lit "supply_chain", lit "gates",
   lit "validation_reports", lit "runtime_package"], by decide +kernel⟩

/-- What the verifier reads of a manifest. -/
structure Written (L : Library) (P : Process) (profile tarball : Str) (gates : List Fields)
    (policy m : Fields) : Prop where
  released : m.get (lit "release_profile") = .str profile
  registry : m.get (lit "gate_registry") = .str (gateRegistry profile)
  passed : m.get (lit "required_gates_passed") = .bool (requiredGatesPassed gates)
  commit : m.get (lit "git_commit") = (provenance P).commit
  dirty : m.get (lit "git_dirty") = .bool (provenance P).dirty
  precheck : m.get (lit "local_precheck") = .bool (provenance P).localPrecheck
  digest : m.get (lit "tarball_sha256") = sha256File L P tarball
  archive : m.get (lit "source_archive") = sourceArchive L P tarball
  runner : m.get (lit "runner") = .str (runner P)
  hosted : m.get (lit "hosted_ci") = hostedCi P
  gatePolicy : m.get (lit "gate_policy") = .obj (gatePolicy L P)
  supplyChain : m.get (lit "supply_chain") =
    .obj (supplyBlock (sha256File L P policyPath) policy)
  gates : m.getD (lit "gates") (.arr []) = .arr (gates.map .obj)

theorem written (L : Library) (P : Process) (profile version tarball : Str) (gates : List Fields)
    (policy : Fields) :
    Written L P profile tarball gates policy
      (manifest L P profile version tarball gates policy) := by
  have hget : ∀ (i : ℕ) (key : Str) (d x : Json),
      (manifest L P profile version tarball gates policy)[i]? = some (key, x) →
      (manifest L P profile version tarball gates policy).getD key d = x := by
    intro i key d x hi
    rw [Fields.getD, Fields.lookup_of_mem (List.mem_of_getElem? hi) manifestKeys.2]
    rfl
  exact {
    released := hget 5 _ .null _ rfl
    registry := hget 4 _ .null _ rfl
    passed := hget 6 _ .null _ rfl
    commit := hget 8 _ .null _ rfl
    dirty := hget 9 _ .null _ rfl
    precheck := hget 11 _ .null _ rfl
    digest := hget 12 _ .null _ rfl
    archive := hget 13 _ .null _ rfl
    runner := hget 17 _ .null _ rfl
    hosted := hget 18 _ .null _ rfl
    gatePolicy := hget 19 _ .null _ rfl
    supplyChain := hget 20 _ .null _ rfl
    gates := hget 21 _ _ _ rfl }

/-- The entry of the summary leaves what the verifier reads besides. -/
theorem Written.summarised (hm : Written L P profile tarball gates policy m) (x : Json) :
    Written L P profile tarball gates policy (Fields.set m (lit "human_summary") x) := by
  have hget : ∀ (key : Str) (d : Json), key ≠ lit "human_summary" →
      (Fields.set m (lit "human_summary") x).getD key d = m.getD key d := by
    intro key d hkey
    rw [Fields.getD, Fields.getD, Fields.lookup_set_of_ne _ _ hkey]
  exact {
    released := (hget _ .null (by decide)).trans hm.released
    registry := (hget _ .null (by decide)).trans hm.registry
    passed := (hget _ .null (by decide)).trans hm.passed
    commit := (hget _ .null (by decide)).trans hm.commit
    dirty := (hget _ .null (by decide)).trans hm.dirty
    precheck := (hget _ .null (by decide)).trans hm.precheck
    digest := (hget _ .null (by decide)).trans hm.digest
    archive := (hget _ .null (by decide)).trans hm.archive
    runner := (hget _ .null (by decide)).trans hm.runner
    hosted := (hget _ .null (by decide)).trans hm.hosted
    gatePolicy := (hget _ .null (by decide)).trans hm.gatePolicy
    supplyChain := (hget _ .null (by decide)).trans hm.supplyChain
    gates := (hget _ _ (by decide)).trans hm.gates }

theorem hostedVars_nodup : (hostedVars.map Prod.fst).Nodup := by
  decide +kernel

theorem hosted_getD (P : Process) {key var : Str} (d : Json) (hvar : (key, var) ∈ hostedVars) :
    Fields.getD (hostedVars.map fun var ↦ (var.1, environJson P var.2)) key d =
      environJson P var := by
  rw [Fields.getD, Fields.lookup_map hostedVars (environJson P),
    Fields.lookup_of_mem hvar hostedVars_nodup]
  rfl

/-- The files whose digests are recorded, under their keys. -/
def hashedFiles : List (Str × Str) :=
  policyFiles.map (fun file ↦ (policyKey file, lit "scripts/" ++ file)) ++
    [(rfc104PolicyHashKey, policyPath)]

theorem hashedFiles_lookup :
    ∀ file ∈ rfc104ArchiveFiles, hashedFiles.lookup file.2 = some file.1 := by
  decide +kernel

theorem gatePolicy_getD (L : Library) (P : Process) (file : Str × Str) (d : Json)
    (hfile : file ∈ rfc104ArchiveFiles) :
    (gatePolicy L P).getD file.2 d = sha256File L P file.1 := by
  have htable : gatePolicy L P = hashedFiles.map fun row ↦ (row.1, sha256File L P row.2) := by
    simp [gatePolicy, hashedFiles]
  rw [htable, Fields.getD, Fields.lookup_map hashedFiles (sha256File L P),
    hashedFiles_lookup file hfile]
  rfl

theorem supplyBlock_eq (hash : Json) (hnodup : policy.keys.Nodup) :
    supplyBlock hash policy = (lit "policy_sha256", policy.getD (lit "policy_sha256") hash) ::
      policy.filter fun entry ↦ decide (entry.1 ≠ lit "policy_sha256") :=
  Fields.foldl_set_eq hash (by simp [Fields.keys]) (by simp [Fields.keys]) hnodup

theorem filter_of_unowned (hown : lit "policy_sha256" ∉ policy.keys) :
    policy.filter (fun entry ↦ decide (entry.1 ≠ lit "policy_sha256")) = policy := by
  rw [List.filter_eq_self]
  intro entry hentry
  rw [decide_eq_true_eq]
  intro heq
  exact hown (heq ▸ List.mem_map_of_mem hentry)

/-- A policy without a digest of its own is embedded below the computed one. -/
theorem supplyBlock_of_unowned (hash : Json) (hnodup : policy.keys.Nodup)
    (hown : lit "policy_sha256" ∉ policy.keys) :
    supplyBlock hash policy = (lit "policy_sha256", hash) :: policy := by
  rw [supplyBlock_eq hash hnodup, filter_of_unowned hown, Fields.getD,
    Fields.lookup_eq_none_of_notMem hown]
  rfl

/-- Nothing that counts was changed since the commit. -/
def CleanCheckout (P : Process) (commit : Str) : Prop :=
  ∃ checkout, P.checkout = some checkout ∧ checkout.commit = commit ∧ dirtyPaths P.strip checkout = []

theorem provenance_clean_iff {commit : Str} :
    (provenance P).commit = .str commit ∧ (provenance P).dirty = false ∧
      (provenance P).localPrecheck = false ↔ CleanCheckout P commit ∧ OnActions P := by
  unfold provenance CleanCheckout
  cases P.checkout with
  | none => simp
  | some checkout => simp [and_assoc]

theorem provenanceErrors_eq_nil_iff (hm : Written L P profile tarball gates policy m)
    (hcontract : (profile, contract) ∈ profiles) (hadmitted : Admitted T profile contract gates) :
    provenanceErrors profile contract m = [] ↔
      ∃ commit, CleanCheckout P commit ∧ OnActions P ∧ fullHex 40 commit = true := by
  have hpassed := hadmitted.requiredGatesPassed
  have hregistry : gateRegistry profile = contract.registry := by
    rw [gateRegistry, (ne_ciCoreProfile hcontract).2.1]
  simp only [provenanceErrors, List.append_eq_nil_iff, report_eq_nil_iff, Bool.not_eq_false',
    Json.eq_str, isBool_iff, hm.registry, hm.passed, hm.dirty, hm.precheck, hm.commit, hpassed,
    hregistry, Json.bool.injEq, true_and]
  constructor
  · rintro ⟨⟨hdirty, hprecheck⟩, hcommit⟩
    obtain ⟨commit, hstr, hlen, hhex⟩ := isHex_iff.mp hcommit
    obtain ⟨hclean, hactions⟩ := provenance_clean_iff.mp ⟨hstr, hdirty, hprecheck⟩
    exact ⟨commit, hclean, hactions, by simpa [fullHex] using ⟨hlen, hhex⟩⟩
  · rintro ⟨commit, hclean, hactions, hhex⟩
    obtain ⟨hstr, hdirty, hprecheck⟩ := provenance_clean_iff.mpr ⟨hclean, hactions⟩
    rw [hstr]
    exact ⟨⟨hdirty, hprecheck⟩, hhex⟩

/-- What is documented of the libraries: a digest has 64 digits, the text of `None`,
and that the decoded policy names no key twice. -/
structure Documented (T : PyText) (L : Library) (P : Process) : Prop where
  hex : ∀ bytes, fullHex 64 (L.sha256 bytes) = true
  none : T.str .null = lit "None"
  unique : ∀ policy, readPolicy L P = .ok policy → (Json.obj policy).unique = true

/-- The policy and the checkers are there, and the policy has the shape that is asked for. -/
structure PolicyFit (T : PyText) (L : Library) (P : Process) (policy : Fields) : Prop where
  shape : validatePolicyShape T
    (.obj (policy.filter fun entry ↦ decide (entry.1 ≠ lit "policy_sha256"))) = []
  digest : policy.getD (lit "policy_sha256") (sha256File L P policyPath) = sha256File L P policyPath
  scripts : (P.file (lit "scripts/ci_supply_chain.py")).isSome = true ∧
    (P.file (lit "scripts/install_ci_tool.py")).isSome = true

theorem fullHex_sha256File (hdoc : Documented T L P) {path : Str} :
    fullHex 64 (T.str (sha256File L P path)) = (P.file path).isSome := by
  unfold sha256File
  cases P.file path with
  | none =>
      rw [hdoc.none]
      decide +kernel
  | some bytes =>
      rw [T.str_str]
      exact hdoc.hex bytes

theorem supplyChainErrors_eq_nil_iff (hm : Written L P profile tarball gates policy m)
    (hdoc : Documented T L P) (hnodup : policy.keys.Nodup) {bytes : List UInt8}
    (hbytes : P.file policyPath = some bytes) :
    supplyChainErrors T profile m = [] ↔ PolicyFit T L P policy := by
  have hpolicyHash := gatePolicy_getD L P (policyPath, rfc104PolicyHashKey) .null
    (List.mem_of_getElem? (i := 0) rfl)
  have hscript := gatePolicy_getD L P
    (lit "scripts/ci_supply_chain.py", lit "ci_supply_chain_py_sha256") (.str [])
    (List.mem_of_getElem? (i := 1) rfl)
  have hinstall := gatePolicy_getD L P
    (lit "scripts/install_ci_tool.py", lit "install_ci_tool_py_sha256") (.str [])
    (List.mem_of_getElem? (i := 2) rfl)
  have hdigest : sha256File L P policyPath = .str (L.sha256 bytes) := by
    rw [sha256File, hbytes]
  have hfilter : (supplyBlock (sha256File L P policyPath) policy).filter
      (fun entry ↦ decide (entry.1 ≠ lit "policy_sha256")) =
      policy.filter fun entry ↦ decide (entry.1 ≠ lit "policy_sha256") := by
    rw [supplyBlock_eq _ hnodup, List.filter_cons_of_neg (by simp), List.filter_filter]
    simp
  have hget : Fields.get (supplyBlock (sha256File L P policyPath) policy) (lit "policy_sha256") =
      policy.getD (lit "policy_sha256") (sha256File L P policyPath) := by
    rw [supplyBlock_eq _ hnodup, Fields.get, Fields.getD, List.lookup_cons_self]
    rfl
  have hkey : lit "policy_sha256" ∈ Fields.keys
      (supplyBlock (sha256File L P policyPath) policy) := by
    rw [supplyBlock_eq _ hnodup, Fields.keys, List.map_cons]
    exact List.mem_cons_self
  rw [supplyChainErrors, hm.supplyChain]
  simp only [if_pos hkey, hfilter, hget, policyHashErrors, hm.gatePolicy, rfc104ScriptHashKeys,
    List.flatMap_cons, List.flatMap_nil, List.append_nil, List.append_eq_nil_iff, report_eq_nil_iff,
    Bool.not_eq_false', List.map_eq_nil_iff]
  rw [Fields.get, hpolicyHash, hscript, hinstall, fullHex_sha256File hdoc, fullHex_sha256File hdoc]
  constructor
  · rintro ⟨⟨hshape, -⟩, heq, hscripts⟩
    refine ⟨hshape, ?_, hscripts⟩
    rw [hdigest, Json.eq, Bool.and_eq_true, Json.same_str_left] at heq
    rw [hdigest]
    exact heq.1
  · rintro ⟨hshape, heq, hscripts⟩
    rw [heq]
    refine ⟨⟨hshape, ?_⟩, ?_, hscripts⟩
    · have hlong := hdoc.hex bytes
      rw [hdigest]
      cases hsha : L.sha256 bytes with
      | nil =>
          rw [hsha] at hlong
          cases hlong
      | cons c s =>
          have htext : T.str ((Json.str (c :: s)).orElse (.str [])) = c :: s := T.str_str _
          rw [htext, ← hsha]
          exact hlong
    · rw [hdigest]
      exact Json.eq_str.mpr rfl

/-- What a hosted run of a commit sets. -/
structure HostedRun (T : PyText) (P : Process) (commit : Str) : Prop where
  isSet : ∀ var ∈ hostedVars, ∃ value ≠ [], P.environ var.2 = some value
  repository : P.environ (lit "GITHUB_REPOSITORY") = some (lit "nabbisen/henret")
  run : ∀ var ∈ [lit "GITHUB_RUN_ID", lit "GITHUB_RUN_ATTEMPT"], ∀ value,
    P.environ var = some value → isDigits T value = true
  sha : P.environ (lit "GITHUB_SHA") = some commit
  workflowSha : P.environ (lit "GITHUB_WORKFLOW_SHA") = some commit
  workflow : ∀ value, P.environ (lit "GITHUB_WORKFLOW_REF") = some value →
    contains value (lit ".github/workflows/ci.yml@") = true
  runner : P.environ (lit "RUNNER_ENVIRONMENT") = some (lit "github-hosted")

theorem environJson_eq_str {var value : Str} :
    environJson P var = .str value ↔ P.environ var = some value := by
  unfold environJson
  cases P.environ var <;> simp

theorem isNonEmptyStr_environJson {var : Str} :
    isNonEmptyStr (environJson P var) = true ↔ ∃ value ≠ [], P.environ var = some value := by
  unfold environJson
  cases P.environ var <;> simp [isNonEmptyStr]

theorem str_environJson {var value : Str} (h : P.environ var = some value) :
    T.str (environJson P var) = value := by
  rw [environJson, h]
  exact T.str_str value

theorem hostedErrors_eq_nil_iff (hm : Written L P profile tarball gates policy m)
    {commit : Str} (hcommit : (provenance P).commit = .str commit) (hactions : OnActions P) :
    hostedErrors T profile m = [] ↔ HostedRun T P commit := by
  have hkeys : sameSet (Fields.keys (hostedVars.map fun var ↦ (var.1, environJson P var.2)))
      hostedCiKeys = true := by
    have hfst : Fields.keys (hostedVars.map fun var ↦ (var.1, environJson P var.2)) =
        hostedVars.map Prod.fst := by
      simp [Fields.keys]
    rw [hfst]
    decide +kernel
  have hisSet : hostedCiKeys.all (fun key ↦ isNonEmptyStr (Fields.get
      (hostedVars.map fun var ↦ (var.1, environJson P var.2)) key)) = true ↔
      ∀ var ∈ hostedVars, ∃ value ≠ [], P.environ var.2 = some value := by
    have hcover : hostedCiKeys = hostedVars.map Prod.fst := rfl
    rw [hcover, List.all_map, List.all_eq_true]
    refine forall₂_congr fun var hvar ↦ ?_
    rw [← isNonEmptyStr_environJson, ← hosted_getD P .null hvar]
    rfl
  have hvalue : ∀ (i : ℕ) (key var : Str) (d : Json), hostedVars[i]? = some (key, var) →
      Fields.getD (hostedVars.map fun var ↦ (var.1, environJson P var.2)) key d =
        environJson P var :=
    fun i key var d hi ↦ hosted_getD P d (List.mem_of_getElem? hi)
  rw [hostedErrors, hm.hosted, hostedCi, if_pos hactions]
  simp only [if_pos hkeys, List.append_eq_nil_iff, report_eq_nil_iff, Bool.not_eq_false',
    Bool.or_eq_false_iff, hisSet, hm.commit, hcommit, Json.eq_str]
  simp only [Fields.get,
    hvalue 0 (lit "repository") _ _ rfl, hvalue 1 (lit "run_id") _ _ rfl,
    hvalue 2 (lit "run_attempt") _ _ rfl, hvalue 4 (lit "sha") _ _ rfl,
    hvalue 6 (lit "workflow_sha") _ _ rfl, hvalue 5 (lit "workflow_ref") _ _ rfl,
    hvalue 7 (lit "runner_environment") _ _ rfl,
    environJson_eq_str]
  constructor
  · rintro ⟨⟨⟨⟨⟨hset, hrepository⟩, hrun⟩, hsha⟩, hworkflow⟩, hrunner⟩
    refine ⟨hset, hrepository, ?_, hsha.1, hsha.2, ?_, hrunner⟩
    · intro var hvar value hvalue
      rw [← str_environJson hvalue (T := T)]
      rcases List.mem_pair.mp hvar with rfl | rfl
      · exact hrun.1
      · exact hrun.2
    · intro value hvalue
      rw [← str_environJson hvalue (T := T)]
      exact hworkflow
  · intro h
    have htext : ∀ var ∈ hostedVars.map Prod.snd, P.environ var = some (T.str (environJson P var)) := by
      intro var hvar
      obtain ⟨entry, hentry, rfl⟩ := List.mem_map.mp hvar
      obtain ⟨value, -, hvalue⟩ := h.isSet entry hentry
      rw [str_environJson hvalue, hvalue]
    refine ⟨⟨⟨⟨⟨h.isSet, h.repository⟩, ?_, ?_⟩, h.sha, h.workflowSha⟩, ?_⟩, h.runner⟩
    · exact h.run _ (by simp) _ (htext _ (.tail _ (.head _)))
    · exact h.run _ (by simp) _ (htext _ (.tail _ (.tail _ (.head _))))
    · exact h.workflow _ (htext _ (.tail _ (.tail _ (.tail _ (.tail _ (.tail _ (.head _)))))))

end Manifest

/-! ## What the contract adds to what the generator has checked -/

/-- The surroundings that make a manifest of a versioned profile acceptable. -/
structure Publishable (T : PyText) (L : Library) (P : Process) (records : List Json)
    (commit : Str) : Prop where
  clean : CleanCheckout P commit
  actions : OnActions P
  hash : fullHex 40 commit = true
  timed : hasEvidence (releaseProfile P) = true → ∀ record : Fields, .obj record ∈ records →
    record.get (lit "id") = .int 11 → Timed T record
  policy : releaseProfile P = v4Profile → ∀ policy, readPolicy L P = .ok policy →
    PolicyFit T L P policy
  hosted : releaseProfile P = v4Profile → HostedRun T P commit

section Assembled

variable {T : PyText} {L : Library} {P : Process} {version tarball path : Str} {contract : Contract}
  {records : List Json} {m : Fields} {out : Artifacts}

theorem summarise_ok (h : summarise L P T m path = .ok out) :
    ∃ bytes, out = ⟨Fields.set m (lit "human_summary") (humanSummary L path bytes), some bytes⟩ := by
  simp only [summarise, bind_ok_iff, pure_ok_iff] at h
  obtain ⟨_, -, bytes, -, rfl⟩ := h
  exact ⟨bytes, rfl⟩

theorem assemble_ok (h : assemble L P T records version tarball path = .ok out) :
    ∃ gates policy, assembleGates T (releaseProfile P) records = .ok gates ∧
      readPolicy L P = .ok policy ∧
      Written L P (releaseProfile P) tarball gates policy out.manifest ∧
      ∀ bytes, out.gateRun = some bytes →
        out.manifest.get (lit "human_summary") = humanSummary L path bytes := by
  simp only [assemble, bind_ok_iff] at h
  obtain ⟨gates, hgates, policy, hpolicy, hout⟩ := h
  have hm := written L P (releaseProfile P) version tarball gates policy
  refine ⟨gates, policy, hgates, hpolicy, ?_⟩
  split at hout
  · cases hout
    refine ⟨hm, ?_⟩
    rintro _ ⟨⟩
  · obtain ⟨bytes, rfl⟩ := summarise_ok (mapError_ok_iff.mp hout)
    refine ⟨hm.summarised _, fun bytes' hbytes ↦ ?_⟩
    obtain rfl := Option.some.inj hbytes
    dsimp only
    rw [Fields.get_set_self]

theorem manifest_item (i : ℕ) {key : Str} {x : Json} {profile : Str} {gates : List Fields}
    {policy : Fields}
    (hi : (manifest L P profile version tarball gates policy)[i]? = some (key, x)) :
    (manifest L P profile version tarball gates policy).item key = .ok x := by
  rw [Fields.item, Fields.lookup_of_mem (List.mem_of_getElem? hi) manifestKeys.2]

variable (L version tarball) in
/-- The summary of the gates that are let through can be rendered if they have names. -/
theorem renderGateRun_manifest {gates : List Fields} (policy : Fields)
    (hcontract : (releaseProfile P, contract) ∈ profiles)
    (hgates : assembleGates T (releaseProfile P) records = .ok gates)
    (hnamed : ∀ record : Fields, .obj record ∈ records → lit "name" ∈ record.keys) :
    ∃ text, GateRun.renderGateRun T
      (manifest L P (releaseProfile P) version tarball gates policy) = .ok text := by
  obtain ⟨hadmitted, dicts, hrecords, hdicts⟩ := assembleGates_ok hcontract hgates
  have hids : ∀ gate ∈ gates, ∃ n, gate.get (lit "id") = .int n := by
    intro gate hgate
    obtain ⟨n, hn, -⟩ := hadmitted.exists_id hgate
    exact ⟨n, hn⟩
  have hrows : ∀ gate ∈ gates, ∀ key ∈ GateRun.rowKeys, key ∈ gate.keys := by
    intro gate hgate
    obtain ⟨n, hn⟩ := hids gate hgate
    refine List.forall_mem_cons.mpr ⟨Fields.mem_keys_of_get (by simp) hn, ?_⟩
    refine List.forall_mem_cons.mpr ⟨?_, ?_⟩
    · rw [hdicts] at hgate
      obtain ⟨record, hrecord, rfl⟩ := List.mem_map.mp hgate
      have hname := hnamed record (hrecords ▸ List.mem_map_of_mem hrecord)
      rw [Fields.mem_keys_iff] at hname ⊢
      rw [asRequired, Fields.lookup_set_of_ne _ _ (by decide), hname]
    · rw [List.forall_mem_singleton]
      exact Fields.mem_keys_of_get (by simp) (hadmitted.status gate hgate)
  have hkeys : ∀ key ∈ GateRun.headKeys, key ∈ manifestKeys.1 := by decide +kernel
  refine GateRun.renderGateRun_ok ?_ ?_ (manifest_item 21 rfl) (GateRun.gateLines_ok hids hrows)
  · exact GateRun.headLines_ok hkeys (manifest_item 13 rfl) (.head _)
      (.tail _ (.tail _ (.head _)))
  · apply GateRun.hostedLines_ok
    intro htruthy
    rw [(written L P _ version tarball gates policy).hosted] at htruthy ⊢
    unfold hostedCi at htruthy ⊢
    split at htruthy
    · rename_i hactions
      rw [if_pos hactions]
      refine ⟨_, rfl, ?_⟩
      have hvars : ∀ key ∈ GateRun.hostedKeys, key ∈ hostedVars.map Prod.fst := by decide +kernel
      rw [Fields.keys, List.map_map]
      exact hvars
    · cases htruthy

theorem readPolicy_ok {policy : Fields} (h : readPolicy L P = .ok policy) :
    ∃ bytes, P.file policyPath = some bytes ∧ L.loads bytes = .ok (.obj policy) := by
  unfold readPolicy at h
  split at h
  · cases h
  · rename_i bytes hbytes
    split at h
    · cases h
    · rename_i policy' hloads
      cases h
      exact ⟨bytes, hbytes, hloads⟩
    · cases h

theorem gateContractErrors_written {profile : Str} {gates : List Fields} {policy : Fields}
    (hm : Written L P profile tarball gates policy m) (hcontract : (profile, contract) ∈ profiles)
    (hadmitted : Admitted T profile contract gates) :
    gateContractErrors T m = .ok (contractErrors T profile contract m gates) := by
  have hgates : readGates m = .ok gates := by
    rw [readGates, hm.gates]
    refine bind_ok_iff.mpr ⟨_, rfl, bind_ok_iff.mpr ⟨gates, ?_, ?_⟩⟩
    · exact Json.mapM_asDict_ok_iff.mpr rfl
    · refine bind_ok_iff.mpr ⟨(), raiseIf_ok_iff.mpr (not_not.mpr ?_), rfl⟩
      rw [List.all_eq_true]
      intro gate hgate
      obtain ⟨n, hid, -⟩ := hadmitted.exists_id hgate
      rw [hid]
      rfl
  simp only [gateContractErrors, hm.released, (ne_ciCoreProfile hcontract).2.1]
  refine bind_ok_iff.mpr ⟨(), raiseIf_ok_iff.mpr (by simp [Json.hashable]), ?_⟩
  exact bind_ok_iff.mpr ⟨gates, hgates, rfl⟩

theorem runnerErrors_written {profile : Str} {gates : List Fields} {policy : Fields}
    (hm : Written L P profile tarball gates policy m) (hactions : OnActions P) :
    runnerErrors profile m = [] := by
  rw [runnerErrors, hm.runner, runner, if_pos hactions, report_eq_nil_iff, Bool.not_eq_false',
    Json.eq_str]

/-- Gates are timed as their records are. -/
theorem timed_gates_iff {dicts : List Fields} (hrecords : records = dicts.map .obj) :
    (∀ gate ∈ dicts.map asRequired, gate.get (lit "id") = .int 11 → Timed T gate) ↔
      ∀ record : Fields, .obj record ∈ records → record.get (lit "id") = .int 11 →
        Timed T record := by
  have hmem : ∀ record : Fields, .obj record ∈ records ↔ record ∈ dicts := by
    simp [hrecords]
  simp only [List.forall_mem_map, hmem, timed_asRequired,
    asRequired_get _ (show lit "id" ≠ lit "criticality" by simp [lit])]

theorem contractErrors_eq_nil_iff {gates : List Fields} {policy : Fields}
    (hm : Written L P (releaseProfile P) tarball gates policy m)
    (hcontract : (releaseProfile P, contract) ∈ profiles)
    (hgates : assembleGates T (releaseProfile P) records = .ok gates)
    (hpolicy : readPolicy L P = .ok policy) (hdoc : Documented T L P) :
    gateContractErrors T m = .ok [] ↔ ∃ commit, Publishable T L P records commit := by
  obtain ⟨hadmitted, dicts, hrecords, hdicts⟩ := assembleGates_ok hcontract hgates
  obtain ⟨bytes, hbytes, hloads⟩ := readPolicy_ok hpolicy
  have heach : gates.flatMap (gateErrors T (releaseProfile P) contract) = [] := by
    rw [List.flatMap_eq_nil_iff]
    intro gate hgate
    apply hadmitted.gateErrors_eq_nil hgate
    rw [hdicts] at hgate
    obtain ⟨record, -, rfl⟩ := List.mem_map.mp hgate
    exact asRequired_criticality record
  have htimed : (∀ gate ∈ gates, gate.get (lit "id") = .int 11 → Timed T gate) ↔
      ∀ record : Fields, .obj record ∈ records → record.get (lit "id") = .int 11 →
        Timed T record := by
    rw [hdicts]
    exact timed_gates_iff hrecords
  have hexplorer := fun hhas ↦ hadmitted.explorerErrors_eq_nil_iff hcontract hhas
  have hsupply : supplyChainErrors T (releaseProfile P) m = [] ↔ PolicyFit T L P policy :=
    supplyChainErrors_eq_nil_iff hm hdoc (Json.keys_nodup (hdoc.unique policy hpolicy)) hbytes
  rw [gateContractErrors_written hm hcontract hadmitted, Except.ok.injEq, contractErrors]
  simp only [List.append_eq_nil_iff, provenanceErrors_eq_nil_iff hm hcontract hadmitted,
    hadmitted.idErrors_eq_nil, heach, and_true]
  constructor
  · rintro ⟨⟨⟨commit, hclean, hactions, hhash⟩, htiming⟩, hv4⟩
    refine ⟨commit, hclean, hactions, hhash, ?_, ?_, ?_⟩
    · intro hhas
      rw [if_pos hhas] at htiming
      exact htimed.mp ((hexplorer hhas).mp htiming)
    · intro hprofile policy' hpolicy'
      rw [if_pos hprofile, List.append_eq_nil_iff, List.append_eq_nil_iff] at hv4
      cases hpolicy.symm.trans hpolicy'
      exact hsupply.mp hv4.1.1
    · intro hprofile
      rw [if_pos hprofile, List.append_eq_nil_iff, List.append_eq_nil_iff] at hv4
      have hcommit := (provenance_clean_iff.mpr ⟨hclean, hactions⟩).1
      exact (hostedErrors_eq_nil_iff hm hcommit hactions).mp hv4.1.2
  · rintro ⟨commit, hrun⟩
    refine ⟨⟨⟨commit, hrun.clean, hrun.actions, hrun.hash⟩, ?_⟩, ?_⟩
    · split
      · rename_i hhas
        exact (hexplorer hhas).mpr (htimed.mpr (hrun.timed hhas))
      · rfl
    · split
      · rename_i hprofile
        have hcommit := (provenance_clean_iff.mpr ⟨hrun.clean, hrun.actions⟩).1
        rw [hsupply.mpr (hrun.policy hprofile policy hpolicy),
          (hostedErrors_eq_nil_iff hm hcommit hrun.actions).mpr (hrun.hosted hprofile),
          runnerErrors_written hm hrun.actions]
        rfl
      · rfl

/-- Of an assembled manifest the contract only questions the checkout, the run and the policy. -/
theorem assemble_accepted_iff (hdoc : Documented T L P)
    (hcontract : (releaseProfile P, contract) ∈ profiles)
    (h : assemble L P T records version tarball path = .ok out) :
    gateContractErrors T out.manifest = .ok [] ↔ ∃ commit, Publishable T L P records commit := by
  obtain ⟨gates, policy, hgates, hpolicy, hm, -⟩ := assemble_ok h
  exact contractErrors_eq_nil_iff hm hcontract hgates hpolicy hdoc

end Assembled

/-! A hosted run whose checkout holds its own archive as an untracked file. -/

def hostedEnviron : List (Str × Str) :=
  [(lit "HENRET_RELEASE_PROFILE", v4Profile), (lit "GITHUB_ACTIONS", lit "true"),
   (lit "GITHUB_REPOSITORY", lit "nabbisen/henret"), (lit "GITHUB_RUN_ID", lit "123"),
   (lit "GITHUB_RUN_ATTEMPT", lit "1"), (lit "GITHUB_REF", lit "refs/heads/main"),
   (lit "GITHUB_SHA", lit "aaaaaaaaaaaaaaaaaaaaaaaaaaaaaaaaaaaaaaaa"),
   (lit "GITHUB_WORKFLOW_REF", lit "nabbisen/henret/.github/workflows/ci.yml@refs/heads/main"),
   (lit "GITHUB_WORKFLOW_SHA", lit "aaaaaaaaaaaaaaaaaaaaaaaaaaaaaaaaaaaaaaaa"),
   (lit "RUNNER_ENVIRONMENT", lit "github-hosted"), (lit "RUNNER_NAME", lit "GitHub Actions 1"),
   (lit "RUNNER_OS", lit "Linux"), (lit "RUNNER_ARCH", lit "X64"), (lit "ImageOS", lit "ubuntu24"),
   (lit "ImageVersion", lit "20260701.1")]

def hostedFiles : List (Str × List UInt8) :=
  [(policyPath, bytesOf (.obj emptyPolicy)), (lit "scripts/ci_supply_chain.py", []),
   (lit "scripts/install_ci_tool.py", [])]

def hostedTarball : Str := lit "release/henret.tar.gz"

def hostedCommit : Str := lit "aaaaaaaaaaaaaaaaaaaaaaaaaaaaaaaaaaaaaaaa"

def hostedProcess (tarball : List UInt8) : Process where
  environ key := hostedEnviron.lookup key
  file path := if path = hostedTarball then some tarball else hostedFiles.lookup path
  checkout := some ⟨hostedCommit, [lit "?? release/henret.tar.gz"]⟩
  timestamp := lit "2026-07-01T00:00:00+00:00"
  platform := lit "Linux"
  strip := id
  write _ text := .ok (text.map fun c ↦ UInt8.ofNat c.val)

def hostedRecord (gate : ℤ × Str) : Fields :=
  [(lit "id", .int gate.1), (lit "evidence_id", .str gate.2), (lit "name", .str gate.2),
    (lit "status", text "pass"), (lit "duration_ms", .int 1),
    (lit "stdout_sha256", samplePolicyHash)] ++
  if gate.1 = 11 then
    [(lit "parameters", .obj v3ExplorerParameters), (lit "result", .obj v3ExplorerResult)]
  else []

def hostedRecords : List Json := v4Gates.map fun gate ↦ .obj (hostedRecord gate)

def hostedSummary : Str := lit "release/GATE-RUN.md"

theorem hosted_environ :
    hostedEnviron.lookup (lit "HENRET_RELEASE_PROFILE") = some v4Profile ∧
    hostedEnviron.lookup (lit "GITHUB_ACTIONS") = some (lit "true") ∧
    hostedEnviron.lookup (lit "GITHUB_REPOSITORY") = some (lit "nabbisen/henret") ∧
    hostedEnviron.lookup (lit "GITHUB_SHA") = some hostedCommit ∧
    hostedEnviron.lookup (lit "GITHUB_WORKFLOW_SHA") = some hostedCommit ∧
    hostedEnviron.lookup (lit "RUNNER_ENVIRONMENT") = some (lit "github-hosted") ∧
    (∀ var ∈ hostedVars, ((hostedEnviron.lookup var.2).any fun value ↦
      decide (value ≠ [])) = true) ∧
    (∀ var ∈ [lit "GITHUB_RUN_ID", lit "GITHUB_RUN_ATTEMPT"],
      ((hostedEnviron.lookup var).all (isDigits scalarText)) = true) ∧
    ((hostedEnviron.lookup (lit "GITHUB_WORKFLOW_REF")).all fun value ↦
      contains value (lit ".github/workflows/ci.yml@")) = true := by
  decide +kernel

/-- The records are let through, have names, and the explorer's is timed. -/
theorem hosted_records :
    (assembleGates scalarText v4Profile hostedRecords).isOk = true ∧
    ∀ gate ∈ v4Gates, lit "name" ∈ (hostedRecord gate).keys ∧
      (isDuration ((hostedRecord gate).get (lit "duration_ms")) &&
        fullHex 64 (scalarText.str ((hostedRecord gate).getD (lit "stdout_sha256") (.str [])))) =
          true := by
  decide +kernel

theorem hosted_files :
    (∀ path ∈ [policyPath, lit "scripts/ci_supply_chain.py", lit "scripts/install_ci_tool.py"],
      path ≠ hostedTarball ∧ (hostedFiles.lookup path).isSome = true) ∧
    (∀ hash ∈ [policyHash, emptyHash, sourceHash], fullHex 64 hash = true) ∧
    fullHex 40 hostedCommit = true ∧
    dirtyPaths id ⟨hostedCommit, [lit "?? release/henret.tar.gz"]⟩ = [] ∧
    (Json.obj emptyPolicy).unique = true ∧ lit "policy_sha256" ∉ Fields.keys emptyPolicy ∧
    validatePolicyShape scalarText (.obj (emptyPolicy.filter fun entry ↦
      decide (entry.1 ≠ lit "policy_sha256"))) = [] := by
  decide +kernel

section Hosted

variable (m : Fields) (tarball : List UInt8)

theorem releaseSha256_hex (bytes : List UInt8) : fullHex 64 (releaseSha256 bytes) = true := by
  have hhex := hosted_files.2.1
  rw [releaseSha256]
  split
  · exact hhex _ (by simp)
  · split <;> exact hhex _ (by simp)

theorem hostedProcess_file {path : Str} (hpath : path ∈ [policyPath,
    lit "scripts/ci_supply_chain.py", lit "scripts/install_ci_tool.py"]) :
    (hostedProcess tarball).file path = hostedFiles.lookup path :=
  if_neg (hosted_files.1 path hpath).1

theorem readPolicy_hosted : readPolicy (libraryOf m) (hostedProcess tarball) =
    .ok emptyPolicy := by
  have hfile : (hostedProcess tarball).file policyPath = some (bytesOf (.obj emptyPolicy)) := by
    rw [hostedProcess_file tarball (by simp), hostedFiles, List.lookup_cons_self]
  simp only [readPolicy, hfile, libraryOf_loads_policy]
  rfl

theorem hosted_documented :
    Documented scalarText (libraryOf m) (hostedProcess tarball) := by
  refine ⟨releaseSha256_hex, rfl, ?_⟩
  intro policy hpolicy
  cases (readPolicy_hosted m tarball).symm.trans hpolicy
  exact hosted_files.2.2.2.2.1

theorem hosted_run : HostedRun scalarText (hostedProcess tarball) hostedCommit := by
  obtain ⟨-, -, hrepository, hsha, hworkflowSha, hrunner, hset, hrun, hworkflow⟩ := hosted_environ
  refine ⟨?_, hrepository, ?_, hsha, hworkflowSha, ?_, hrunner⟩
  · intro var hvar
    obtain ⟨value, hvalue, hne⟩ := (Option.any_eq_true _ _).mp (hset var hvar)
    exact ⟨value, by simpa using hne, hvalue⟩
  · intro var hvar value hvalue
    exact (Option.all_eq_true _ _).mp (hrun var hvar) value hvalue
  · intro value hvalue
    exact (Option.all_eq_true _ _).mp hworkflow value hvalue

theorem hosted_publishable : Publishable scalarText (libraryOf m) (hostedProcess tarball)
    hostedRecords hostedCommit := by
  obtain ⟨hscripts, -, hcommit, hdirty, -, hown, hshape⟩ := hosted_files
  refine ⟨⟨_, rfl, rfl, hdirty⟩, hosted_environ.2.1, hcommit, ?_, ?_, fun _ ↦ hosted_run tarball⟩
  · intro _ record hrecord _
    obtain ⟨gate, hgate, ⟨⟩⟩ := List.mem_map.mp hrecord
    have htimed := (hosted_records.2 gate hgate).2
    rw [Bool.and_eq_true] at htimed
    exact htimed
  · intro _ policy hpolicy
    cases (readPolicy_hosted m tarball).symm.trans hpolicy
    refine ⟨hshape, ?_, ?_, ?_⟩
    · rw [Fields.getD, Fields.lookup_eq_none_of_notMem hown]
      rfl
    · rw [hostedProcess_file tarball (by simp)]
      exact (hscripts _ (by simp)).2
    · rw [hostedProcess_file tarball (by simp)]
      exact (hscripts _ (by simp)).2

theorem hosted_profile : releaseProfile (hostedProcess tarball) = v4Profile := by
  change (hostedEnviron.lookup (lit "HENRET_RELEASE_PROFILE")).getD (lit "full") = v4Profile
  rw [hosted_environ.1]
  rfl

/-- The manifest of the hosted run; the digests do not depend on what is decoded. -/
def hostedManifest (gates : List Fields) : Fields :=
  manifest (libraryOf []) (hostedProcess tarball) v4Profile (lit "0.9.0") hostedTarball gates
    emptyPolicy

/-- The hosted run leaves a summary and a manifest that names it. -/
theorem assemble_hosted : ∃ gates bytes, bytes ≠ [] ∧ ∀ m, assemble (libraryOf m)
    (hostedProcess tarball) scalarText hostedRecords (lit "0.9.0") hostedTarball hostedSummary =
      .ok ⟨Fields.set (hostedManifest tarball gates) (lit "human_summary")
        (humanSummary (libraryOf []) hostedSummary bytes), some bytes⟩ := by
  obtain ⟨gates, hgates⟩ := exists_of_isOk hosted_records.1
  have hcurrent : (releaseProfile (hostedProcess tarball), ⟨v4Registry, v4Gates⟩) ∈ profiles := by
    rw [hosted_profile]
    exact v4Contract_mem
  have hnamed : ∀ record : Fields, .obj record ∈ hostedRecords → lit "name" ∈ record.keys := by
    intro record hrecord
    obtain ⟨gate, hgate, ⟨⟩⟩ := List.mem_map.mp hrecord
    exact (hosted_records.2 gate hgate).1
  rw [← hosted_profile tarball] at hgates
  obtain ⟨text, htext⟩ := renderGateRun_manifest (libraryOf []) (lit "0.9.0") hostedTarball
    emptyPolicy hcurrent hgates hnamed
  refine ⟨gates, text.map fun c ↦ UInt8.ofNat c.val, ?_, fun m ↦ ?_⟩
  · rw [ne_eq, List.map_eq_nil_iff]
    exact GateRun.renderGateRun_ne_nil htext
  have hsha : ∀ path, sha256File (libraryOf m) (hostedProcess tarball) path =
      sha256File (libraryOf []) (hostedProcess tarball) path := fun _ ↦ rfl
  have hmanifest : manifest (libraryOf m) (hostedProcess tarball)
      (releaseProfile (hostedProcess tarball)) (lit "0.9.0") hostedTarball gates emptyPolicy =
      hostedManifest tarball gates := by
    simp only [hostedManifest, manifest, sourceArchive, gatePolicy, hsha, hosted_profile]
  have hrender : GateRun.renderGateRun scalarText (hostedManifest tarball gates) = .ok text := by
    rw [hostedManifest, ← hosted_profile tarball]
    exact htext
  rw [assemble, hgates, readPolicy_hosted]
  simp only [bind_of_ok rfl, hmanifest, if_neg (show hostedSummary ≠ [] by decide), summarise,
    hrender]
  rfl

end Hosted

theorem assemble_accepted_iff_hosted :
    ∃ out, assemble (libraryOf []) (hostedProcess []) scalarText hostedRecords (lit "0.9.0")
      hostedTarball hostedSummary = .ok out ∧
      gateContractErrors scalarText out.manifest = .ok [] := by
  obtain ⟨gates, bytes, -, hassemble⟩ := assemble_hosted []
  have hcurrent : (releaseProfile (hostedProcess []), ⟨v4Registry, v4Gates⟩) ∈ profiles := by
    rw [hosted_profile]
    exact v4Contract_mem
  refine ⟨_, hassemble [], ?_⟩
  apply (assemble_accepted_iff (hosted_documented [] []) hcurrent (hassemble [])).mpr
  exact ⟨hostedCommit, hosted_publishable [] []⟩

end Henret.Release.Assemble
