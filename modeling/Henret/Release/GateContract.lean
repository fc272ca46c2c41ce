import Henret.Release.Manifest

/-!
# What an accepted release manifest guarantees

Each group of checks is read backwards: no error means that its conditions
hold.  The gate records then are exactly the registry's, because their ids are
integers, occur once, and neither miss nor exceed the registry.
-/

namespace Henret.Release

open Outcome PyJson PyStr

/-- The conditions on a manifest of a known profile that its checks stand for. -/
structure GateContract (profile : Str) (contract : Contract) (manifest : Fields)
    (gates : List Fields) : Prop where
  registry : manifest.get (lit "gate_registry") = .str contract.registry
  passed : manifest.get (lit "required_gates_passed") = .bool true
  clean : manifest.get (lit "git_dirty") = .bool false
  authoritative : manifest.get (lit "local_precheck") = .bool false
  commit : ∃ s : Str, manifest.get (lit "git_commit") = .str s ∧ s.length = 40 ∧
    ∀ c ∈ s, isLowerHex c = true
  records : manifest.get (lit "gates") = .arr (gates.map .obj)
  ids : ∃ ns : List ℤ, gates.map (fun gate ↦ gate.get (lit "id")) = ns.map .int ∧ ns.Nodup ∧
    ∀ n, n ∈ ns ↔ n ∈ contract.gates.map Prod.fst
  required : ∀ gate ∈ gates, gate.get (lit "criticality") = .str (lit "required")
  status : ∀ gate ∈ gates, gate.get (lit "status") = .str (lit "pass")
  evidence : profile = v3Profile ∨ profile = v4Profile → ∀ gate ∈ gates, ∃ n e,
    gate.get (lit "id") = .int n ∧ contract.gates.lookup n = some e ∧
    gate.get (lit "evidence_id") = .str e
  explorer : profile = v3Profile ∨ profile = v4Profile → ∃ gate ∈ gates,
    gate.get (lit "id") = .int 11 ∧
    ValidEvidence (gate.get (lit "parameters")) (gate.get (lit "result"))
  policy : profile = v4Profile → ∃ supplyChain gatePolicy : Fields,
    manifest.get (lit "supply_chain") = .obj supplyChain ∧
    lit "policy_sha256" ∈ supplyChain.keys ∧
    manifest.get (lit "gate_policy") = .obj gatePolicy ∧
    (gatePolicy.get rfc104PolicyHashKey).eq (supplyChain.get (lit "policy_sha256")) = true
  hosted : profile = v4Profile → ∃ hosted : Fields,
    manifest.get (lit "hosted_ci") = .obj hosted ∧
    hosted.get (lit "sha") = manifest.get (lit "git_commit") ∧
    hosted.get (lit "workflow_sha") = manifest.get (lit "git_commit")

section Checks

variable {T : PyText} {profile : Str} {contract : Contract} {manifest : Fields}

theorem isBool_iff {x : Json} {b : Bool} : isBool x (.bool b) = true ↔ x = .bool b := by
  cases x <;> simp [isBool]

theorem isHex_iff {n : ℕ} {x : Json} : x.isHex n = true ↔
    ∃ s : Str, x = .str s ∧ s.length = n ∧ ∀ c ∈ s, isLowerHex c = true := by
  cases x <;> simp [Json.isHex, fullHex]

theorem provenanceErrors_nil (h : provenanceErrors profile contract manifest = []) :
    manifest.get (lit "gate_registry") = .str contract.registry ∧
    manifest.get (lit "required_gates_passed") = .bool true ∧
    manifest.get (lit "git_dirty") = .bool false ∧
    manifest.get (lit "local_precheck") = .bool false ∧
    (manifest.get (lit "git_commit")).isHex 40 = true := by
  simpa only [provenanceErrors, List.append_eq_nil_iff, report_eq_nil_iff, Bool.not_eq_false',
    Json.eq_str, isBool_iff, and_assoc] using h

theorem filterMap_intOf (ns : List ℤ) : (ns.map Json.int).filterMap intOf = ns := by
  rw [List.filterMap_map]
  exact List.filterMap_some

theorem idErrors_nil {ids : List Json} (h : idErrors T profile contract ids = []) :
    ∃ ns : List ℤ, ids = ns.map .int ∧ ns.Nodup ∧
      ∀ n, n ∈ ns ↔ n ∈ contract.gates.map Prod.fst := by
  simp only [idErrors, List.append_eq_nil_iff, report_eq_nil_iff, Bool.not_eq_false', bne_eq_false_iff_eq,
    decide_eq_false_iff_not, not_not, List.filter_eq_nil_iff, decide_eq_true_eq] at h
  obtain ⟨⟨⟨hints, hlen⟩, hmissing⟩, hextra⟩ := h
  obtain ⟨ns, rfl⟩ := Json.exists_ints hints
  rw [filterMap_intOf] at hmissing hextra
  refine ⟨ns, rfl, Json.nodup_of_length_distinct hlen, ?_⟩
  intro n
  refine ⟨fun hn ↦ hextra n (List.mem_dedup.mpr hn), fun hn ↦ hmissing n hn⟩

/-- The registry lookup of an integer id finds the entry of that number. -/
theorem find?_same {gates : List (ℤ × Str)} {n : ℤ} (hn : n ∈ gates.map Prod.fst) :
    ∃ e, gates.find? (fun expected ↦ (Json.int n).same (.int expected.1)) = some (n, e) ∧
      gates.lookup n = some e := by
  induction gates with
  | nil => cases hn
  | cons gate gates ih =>
      obtain ⟨m, e⟩ := gate
      by_cases hm : n = m
      · subst hm
        refine ⟨e, ?_, ?_⟩
        · simp [Json.same_int.mpr]
        · simp
      · obtain ⟨e', hfind, hlookup⟩ := ih (by simpa [hm] using hn)
        refine ⟨e', ?_, ?_⟩
        · have hno : (Json.int n).same (.int m) = false :=
            Bool.eq_false_iff.mpr fun h ↦ hm (Json.same_int.mp h)
          rw [List.find?_cons, hno]
          exact hfind
        · rw [List.lookup_cons, beq_false_of_ne hm]
          exact hlookup

theorem gateErrors_nil {gate : Fields} {n : ℤ} (hid : gate.get (lit "id") = .int n)
    (hn : n ∈ contract.gates.map Prod.fst) (h : gateErrors T profile contract gate = []) :
    gate.get (lit "criticality") = .str (lit "required") ∧
    gate.get (lit "status") = .str (lit "pass") ∧
    (profile = v3Profile ∨ profile = v4Profile → ∃ e,
      contract.gates.lookup n = some e ∧ gate.get (lit "evidence_id") = .str e) := by
  obtain ⟨e, hfind, hlookup⟩ := find?_same hn
  rw [gateErrors, hid] at h
  simp only [hfind, List.append_eq_nil_iff, report_eq_nil_iff, Bool.not_eq_false', Json.eq_str,
    Bool.and_eq_false_iff] at h
  obtain ⟨⟨hcriticality, hstatus⟩, hevidence⟩ := h
  refine ⟨hcriticality, hstatus, ?_⟩
  intro hprofile
  rcases hevidence with hno | heq
  · simp [hasEvidence, hprofile] at hno
  · exact ⟨e, hlookup, heq⟩

theorem explorerErrors_nil {gates : List Fields} {ns : List ℤ}
    (hids : gates.map (fun gate ↦ gate.get (lit "id")) = ns.map .int) (hn : 11 ∈ ns)
    (h : explorerErrors T profile gates = []) :
    ∃ gate ∈ gates, gate.get (lit "id") = .int 11 ∧
      ValidEvidence (gate.get (lit "parameters")) (gate.get (lit "result")) := by
  rw [explorerErrors] at h
  cases hfind : gates.find? fun gate ↦ (gate.get (lit "id")).eq (.int 11) with
  | none =>
      have hmem : Json.int 11 ∈ gates.map (fun gate ↦ gate.get (lit "id")) := by
        rw [hids]
        exact List.mem_map_of_mem hn
      obtain ⟨gate, hgate, hid⟩ := List.mem_map.mp hmem
      have hno := List.find?_eq_none.mp hfind gate hgate
      rw [hid] at hno
      exact absurd (Json.eq_int.mpr rfl) hno
  | some gate =>
      have hgate := List.mem_of_find?_eq_some hfind
      have hid : gate.get (lit "id") = .int 11 := by
        have hmem : gate.get (lit "id") ∈ ns.map Json.int := by
          rw [← hids]
          exact List.mem_map_of_mem hgate
        obtain ⟨n, -, hint⟩ := List.mem_map.mp hmem
        have heq := List.find?_some hfind
        rw [← hint, Json.eq_int] at heq
        rw [← hint, heq]
      simp only [hfind, List.append_eq_nil_iff] at h
      obtain ⟨⟨hevidence, -⟩, -⟩ := h
      refine ⟨gate, hgate, hid, ?_⟩
      cases hvalid : validateManifestEvidence T (gate.get (lit "parameters"))
          (gate.get (lit "result")) with
      | ok u => exact validateManifestEvidence_ok hvalid
      | error exc =>
          rw [hvalid] at hevidence
          cases hevidence

theorem supplyChainErrors_nil (h : supplyChainErrors T profile manifest = []) :
    ∃ supplyChain gatePolicy : Fields,
      manifest.get (lit "supply_chain") = .obj supplyChain ∧
      lit "policy_sha256" ∈ supplyChain.keys ∧
      manifest.get (lit "gate_policy") = .obj gatePolicy ∧
      (gatePolicy.get rfc104PolicyHashKey).eq (supplyChain.get (lit "policy_sha256")) = true := by
  unfold supplyChainErrors at h
  split at h
  · rename_i supplyChain hsupply
    split at h
    · rename_i hkey
      simp only [List.append_eq_nil_iff] at h
      obtain ⟨-, hpolicy⟩ := h
      unfold policyHashErrors at hpolicy
      split at hpolicy
      · rename_i gatePolicy hgate
        simp only [List.append_eq_nil_iff, report_eq_nil_iff, Bool.not_eq_false'] at hpolicy
        exact ⟨supplyChain, gatePolicy, hsupply, hkey, hgate, hpolicy.1⟩
      · cases hpolicy
    · cases h
  · cases h

theorem hostedErrors_nil {commit : Str} (hcommit : manifest.get (lit "git_commit") = .str commit)
    (h : hostedErrors T profile manifest = []) :
    ∃ hosted : Fields, manifest.get (lit "hosted_ci") = .obj hosted ∧
      hosted.get (lit "sha") = manifest.get (lit "git_commit") ∧
      hosted.get (lit "workflow_sha") = manifest.get (lit "git_commit") := by
  unfold hostedErrors at h
  split at h
  · rename_i hosted hhosted
    split at h
    · simp only [List.append_eq_nil_iff, report_eq_nil_iff, Bool.or_eq_false_iff,
        Bool.not_eq_false', hcommit, Json.eq_str] at h
      obtain ⟨⟨⟨-, hsha⟩, -⟩, -⟩ := h
      rw [hcommit]
      exact ⟨hosted, hhosted, hsha.1, hsha.2⟩
    · cases h
  · cases h

theorem readGates_ok {gates : List Fields} (hne : gates ≠ []) (h : readGates manifest = .ok gates) :
    manifest.get (lit "gates") = .arr (gates.map .obj) := by
  simp only [readGates, bind_ok_iff, pure_ok_iff] at h
  obtain ⟨items, hitems, dicts, hdicts, _, -, rfl⟩ := h
  rw [Json.mapM_asDict_ok_iff.mp hdicts] at hitems
  apply Fields.get_of_getD _ (Json.iterate_dicts hne hitems)
  intro heq
  exact hne (by simpa using heq)

end Checks

theorem contractErrors_nil {T : PyText} {profile : Str} {contract : Contract} {manifest : Fields}
    {gates : List Fields} (hcontract : (profile, contract) ∈ profiles)
    (hgates : readGates manifest = .ok gates)
    (h : contractErrors T profile contract manifest gates = []) :
    GateContract profile contract manifest gates := by
  have hregistry : ∀ entry ∈ profiles, (0 : ℤ) ∈ entry.2.gates.map Prod.fst ∧
      (hasEvidence entry.1 = true → (11 : ℤ) ∈ entry.2.gates.map Prod.fst) := by
    decide +kernel
  obtain ⟨hzero, heleven⟩ := hregistry _ hcontract
  simp only [contractErrors, List.append_eq_nil_iff, List.flatMap_eq_nil_iff] at h
  obtain ⟨⟨⟨⟨hprovenance, hids⟩, heach⟩, hexplorer⟩, hv4⟩ := h
  obtain ⟨hreg, hpassed, hclean, hauth, hcommit⟩ := provenanceErrors_nil hprovenance
  obtain ⟨ns, hns, hnodup, hexact⟩ := idErrors_nil hids
  have hne : gates ≠ [] := by
    rintro rfl
    have hnil : ns = [] := by simpa using hns.symm
    have hmem := (hexact 0).mpr hzero
    rw [hnil] at hmem
    cases hmem
  have hrecord : ∀ gate ∈ gates, ∃ n, gate.get (lit "id") = .int n ∧
      n ∈ contract.gates.map Prod.fst := by
    intro gate hgate
    have hmem : gate.get (lit "id") ∈ ns.map Json.int := by
      rw [← hns]
      exact List.mem_map_of_mem hgate
    obtain ⟨n, hn, hint⟩ := List.mem_map.mp hmem
    exact ⟨n, hint.symm, (hexact n).mp hn⟩
  obtain ⟨commit, hstr, hhex⟩ := isHex_iff.mp hcommit
  refine ⟨hreg, hpassed, hclean, hauth, ⟨commit, hstr, hhex⟩, readGates_ok hne hgates,
    ⟨ns, hns, hnodup, hexact⟩, ?_, ?_, ?_, ?_, ?_, ?_⟩
  · intro gate hgate
    obtain ⟨n, hid, hn⟩ := hrecord gate hgate
    exact (gateErrors_nil hid hn (heach gate hgate)).1
  · intro gate hgate
    obtain ⟨n, hid, hn⟩ := hrecord gate hgate
    exact (gateErrors_nil hid hn (heach gate hgate)).2.1
  · intro hprofile gate hgate
    obtain ⟨n, hid, hn⟩ := hrecord gate hgate
    obtain ⟨e, hlookup, hevidence⟩ := (gateErrors_nil hid hn (heach gate hgate)).2.2 hprofile
    exact ⟨n, e, hid, hlookup, hevidence⟩
  · intro hprofile
    have hhas : hasEvidence profile = true := by simpa [hasEvidence] using hprofile
    rw [if_pos hhas] at hexplorer
    exact explorerErrors_nil hns ((hexact 11).mpr (heleven hhas)) hexplorer
  · intro hprofile
    rw [if_pos hprofile, List.append_eq_nil_iff, List.append_eq_nil_iff] at hv4
    exact supplyChainErrors_nil hv4.1.1
  · intro hprofile
    rw [if_pos hprofile, List.append_eq_nil_iff, List.append_eq_nil_iff] at hv4
    exact hostedErrors_nil hstr hv4.1.2

/-- An accepted manifest of a versioned profile meets the contract of its profile. -/
theorem gateContractErrors_complete (T : PyText) (manifest : Fields) (profile : Str)
    (contract : Contract) (hcontract : (profile, contract) ∈ profiles)
    (hprofile : manifest.get (lit "release_profile") = .str profile)
    (h : gateContractErrors T manifest = .ok []) :
    ∃ gates, GateContract profile contract manifest gates := by
  have hlookups : ∀ entry ∈ profiles, profiles.lookup entry.1 = some entry.2 := by
    decide +kernel
  have hlookup : profiles.lookup profile = some contract := hlookups _ hcontract
  simp only [gateContractErrors, hprofile, hlookup, bind_ok_iff, pure_ok_iff] at h
  obtain ⟨_, -, gates, hgates, herrors⟩ := h
  exact ⟨gates, contractErrors_nil hcontract hgates herrors⟩

/-! ## A manifest of the current profile -/

def samplePolicy : Fields :=
  [(lit "schema", .int 1),
   (lit "actions", .obj
     [(lit "actions/checkout", .obj
       [(lit "version", text "v6"),
        (lit "commit", text "d23441a48e516b6c34aea4fa41551a30e30af803")])]),
   (lit "tools", .obj
     [(lit "mdbook", .obj
       [(lit "version", text "v0.5.4"),
        (lit "url", text "https://github.com/rust-lang/mdBook/releases/download/v0.5.4/mdbook.tar.gz"),
        (lit "sha256", text "3f28de05dafca9d0f2eab99c662116b0e37b89b1d96a08f8f430b9eeae958cd7"),
        (lit "archive", text "tar.gz"),
        (lit "binary", text "mdbook")])]),
   (lit "workflow_tools", .obj [(lit "docs.yml", .arr [text "mdbook"])]),
   (lit "workflow_sha256", .obj
     [(lit "docs.yml", text "80c9820eeea4c8934f1bead7f7e9cba43c308e869ba273c252bf89b768e9dd7f")])]

def samplePolicyHash : Json :=
  text "099f54f30f82bf80dc0c7e42f5931a717914da8303210a2b7d9a5219c957da93"

def sampleCommit : Json := text "aaaaaaaaaaaaaaaaaaaaaaaaaaaaaaaaaaaaaaaa"

def sampleGate (gate : ℤ × Str) : Json :=
  .obj ([(lit "id", .int gate.1), (lit "evidence_id", .str gate.2),
    (lit "criticality", text "required"), (lit "status", text "pass"),
    (lit "duration_ms", .int 1), (lit "stdout_sha256", samplePolicyHash)] ++
    if gate.1 = 11 then
      [(lit "parameters", .obj v3ExplorerParameters), (lit "result", .obj v3ExplorerResult)]
    else [])

def sampleHosted : Fields :=
  [(lit "repository", text "nabbisen/henret"), (lit "run_id", text "123"),
   (lit "run_attempt", text "1"), (lit "ref", text "refs/heads/main"), (lit "sha", sampleCommit),
   (lit "workflow_ref", text "nabbisen/henret/.github/workflows/ci.yml@refs/heads/main"),
   (lit "workflow_sha", sampleCommit), (lit "runner_environment", text "github-hosted"),
   (lit "runner_name", text "GitHub Actions 1"), (lit "runner_os", text "Linux"),
   (lit "runner_arch", text "X64"), (lit "image_os", text "ubuntu24"),
   (lit "image_version", text "20260701.1")]

def sampleManifest : Fields :=
  [(lit "release_profile", .str v4Profile),
   (lit "gate_registry", .str v4Registry),
   (lit "required_gates_passed", .bool true),
   (lit "git_dirty", .bool false),
   (lit "local_precheck", .bool false),
   (lit "git_commit", sampleCommit),
   (lit "gates", .arr (v4Gates.map sampleGate)),
   (lit "runner", text "github-actions"),
   (lit "supply_chain", .obj ((lit "policy_sha256", samplePolicyHash) :: samplePolicy)),
   (lit "gate_policy", .obj
     [(rfc104PolicyHashKey, samplePolicyHash),
      (lit "ci_supply_chain_py_sha256",
        text "0383ccb45afdbd5bd55c82bfe21e42a54891984ce5277630d63bbd5744ec8eda"),
      (lit "install_ci_tool_py_sha256",
        text "752ab8153fe26e062e7eb455de94a69667e81dfacbb63c547c374c0c7ec82769")]),
   (lit "hosted_ci", .obj sampleHosted)]

theorem gateContractErrors_complete_sample :
    ∃ gates, GateContract v4Profile ⟨v4Registry, v4Gates⟩ sampleManifest gates :=
  gateContractErrors_complete scalarText sampleManifest v4Profile ⟨v4Registry, v4Gates⟩
    (by decide +kernel) (Json.eq_str.mp (by decide +kernel)) (by decide +kernel)

end Henret.Release
