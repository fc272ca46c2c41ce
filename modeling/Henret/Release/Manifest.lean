import Henret.Release.Policy
import Henret.Release.Registry

/-!
# The gate contract of a release manifest

A manifest of a versioned profile is accepted when no check adds an error.
Acceptance then fixes its gate records, its provenance flags and, from the
fourth profile on, the hosted run and the supply-chain policy behind it.
-/

namespace Henret.Release

open Outcome PyJson PyStr

def knownLegacyProfiles : List Str := [lit "ci-core-v1", lit "full"]

def rfc104PolicyHashKey : Str := lit "ci_supply_chain_json_sha256"

def rfc104ScriptHashKeys : List Str :=
  [lit "ci_supply_chain_py_sha256", lit "install_ci_tool_py_sha256"]

def hostedCiKeys : List Str :=
  [lit "repository", lit "run_id", lit "run_attempt", lit "ref", lit "sha", lit "workflow_ref",
   lit "workflow_sha", lit "runner_environment", lit "runner_name", lit "runner_os",
   lit "runner_arch", lit "image_os", lit "image_version"]

section Errors

variable (T : PyText) (profile : Str) (contract : Contract) (manifest : Fields)

def provenanceErrors : List Str :=
  report (!(manifest.get (lit "gate_registry")).eq (.str contract.registry))
    (profile ++ lit " requires gate_registry " ++ contract.registry) ++
  report (!isBool (manifest.get (lit "required_gates_passed")) (.bool true))
    (profile ++ lit " requires required_gates_passed=true") ++
  report (!isBool (manifest.get (lit "git_dirty")) (.bool false))
    (profile ++ lit " is not authoritative when git_dirty is not false") ++
  report (!isBool (manifest.get (lit "local_precheck")) (.bool false))
    (profile ++ lit " is not authoritative when local_precheck is not false") ++
  report (!(manifest.get (lit "git_commit")).isHex 40)
    (profile ++ lit " git_commit must be exactly 40 lowercase hexadecimal characters")

def intOf : Json → Option ℤ
  | .int n => some n
  | _ => none

def intList (ns : List ℤ) : Json := .arr ((ns.insertionSort (· ≤ ·)).map .int)

def idErrors (ids : List Json) : List Str :=
  let expectedIds := contract.gates.map Prod.fst
  let integerIds := ids.filterMap intOf
  let missing := expectedIds.filter fun n ↦ decide (n ∉ integerIds)
  let extra := integerIds.dedup.filter fun n ↦ decide (n ∉ expectedIds)
  report (!ids.all Json.isInt) (profile ++ lit " gate IDs must be integers") ++
  report (ids.length != (Json.distinct ids).length)
    (profile ++ lit " contains duplicate gate IDs") ++
  report (decide (missing ≠ []))
    (profile ++ lit " missing required gate IDs: " ++ T.str (intList missing)) ++
  report (decide (extra ≠ []))
    (profile ++ lit " has unexpected gate IDs: " ++ T.str (intList extra))

def hasEvidence : Bool := decide (profile = v3Profile ∨ profile = v4Profile)

def gateErrors (gate : Fields) : List Str :=
  let gateId := gate.get (lit "id")
  match contract.gates.find? fun expected ↦ gateId.same (.int expected.1) with
  | none => []
  | some expected =>
      report (!(gate.get (lit "criticality")).eq (.str (lit "required")))
        (profile ++ lit " gate " ++ T.str gateId ++ lit " is not required") ++
      report (!(gate.get (lit "status")).eq (.str (lit "pass")))
        (profile ++ lit " gate " ++ T.str gateId ++ lit " did not pass") ++
      report (hasEvidence profile && !(gate.get (lit "evidence_id")).eq (.str expected.2))
        (profile ++ lit " gate " ++ T.str gateId ++ lit " evidence_id does not match registry")

def isDuration : Json → Bool
  | .int n => decide (0 ≤ n)
  | _ => false

def explorerErrors (gates : List Fields) : List Str :=
  match gates.find? fun gate ↦ (gate.get (lit "id")).eq (.int 11) with
  | none => []
  | some explorer =>
      (match validateManifestEvidence T (explorer.get (lit "parameters"))
          (explorer.get (lit "result")) with
        | .ok _ => []
        | .error exc => [profile ++ lit " explorer evidence invalid: " ++ exc]) ++
      report (!isDuration (explorer.get (lit "duration_ms")))
        (profile ++ lit " explorer duration_ms is missing or invalid") ++
      report (!fullHex 64 (T.str (explorer.getD (lit "stdout_sha256") (.str []))))
        (profile ++ lit " explorer stdout_sha256 is missing or invalid")

def policyHashErrors (policyHash : Json) : List Str :=
  match manifest.get (lit "gate_policy") with
  | .obj gatePolicy =>
      report (!(Fields.get gatePolicy rfc104PolicyHashKey).eq policyHash)
        (profile ++ lit " supply-chain policy hashes disagree") ++
      rfc104ScriptHashKeys.flatMap fun key ↦
        report (!fullHex 64 (T.str (Fields.getD gatePolicy key (.str []))))
          (profile ++ lit " gate_policy missing or invalid " ++ key)
  | _ => [profile ++ lit " requires gate_policy evidence"]

def supplyChainErrors : List Str :=
  match manifest.get (lit "supply_chain") with
  | .obj supplyChain =>
      if lit "policy_sha256" ∈ Fields.keys supplyChain then
        let policy := supplyChain.filter fun entry ↦ decide (entry.1 ≠ lit "policy_sha256")
        let policyHash := Fields.get supplyChain (lit "policy_sha256")
        (validatePolicyShape T (.obj policy)).map
          (fun error ↦ profile ++ lit " supply_chain invalid: " ++ error) ++
        report (!fullHex 64 (T.str (policyHash.orElse (.str []))))
          (profile ++ lit " supply_chain policy_sha256 is invalid") ++
        policyHashErrors T profile manifest policyHash
      else [profile ++ lit " requires supply_chain evidence"]
  | _ => [profile ++ lit " requires supply_chain evidence"]

/-- `s.isdigit()`. -/
def isDigits (s : Str) : Bool := decide (s ≠ []) && s.all T.isDigit

def hostedErrors : List Str :=
  match manifest.get (lit "hosted_ci") with
  | .obj hosted =>
      if sameSet (Fields.keys hosted) hostedCiKeys then
        let value := Fields.get hosted
        let text := fun key ↦ T.str (Fields.getD hosted key (.str []))
        report (!hostedCiKeys.all fun key ↦ isNonEmptyStr (value key))
          (profile ++ lit " hosted_ci fields must be non-empty strings") ++
        report (!(value (lit "repository")).eq (.str (lit "nabbisen/henret")))
          (profile ++ lit " hosted_ci repository is not nabbisen/henret") ++
        report (!isDigits T (text (lit "run_id")) || !isDigits T (text (lit "run_attempt")))
          (profile ++ lit " hosted_ci run identity is invalid") ++
        report (!(value (lit "sha")).eq (manifest.get (lit "git_commit")) ||
            !(value (lit "workflow_sha")).eq (manifest.get (lit "git_commit")))
          (profile ++ lit " hosted_ci commit identity disagrees") ++
        report (!contains (text (lit "workflow_ref")) (lit ".github/workflows/ci.yml@"))
          (profile ++ lit " hosted_ci workflow is not ci.yml") ++
        report (!(value (lit "runner_environment")).eq (.str (lit "github-hosted")))
          (profile ++ lit " runner is not GitHub-hosted")
      else [profile ++ lit " requires exact hosted_ci provenance"]
  | _ => [profile ++ lit " requires exact hosted_ci provenance"]

def runnerErrors : List Str :=
  report (!(manifest.get (lit "runner")).eq (.str (lit "github-actions")))
    (profile ++ lit " requires runner=github-actions")

/-- The checks of a known profile over the manifest's gate records. -/
def contractErrors (gates : List Fields) : List Str :=
  provenanceErrors profile contract manifest ++
  idErrors T profile contract (gates.map fun gate ↦ gate.get (lit "id")) ++
  gates.flatMap (gateErrors T profile contract) ++
  (if hasEvidence profile then explorerErrors T profile gates else []) ++
  if profile = v4Profile then
    supplyChainErrors T profile manifest ++ hostedErrors T profile manifest ++
      runnerErrors profile manifest
  else []

end Errors

def readGates (manifest : Fields) : Except Raised (List Fields) := do
  let items ← (manifest.getD (lit "gates") (.arr [])).iterate
  let gates ← items.mapM Json.asDict
  raiseIf (¬ gates.all (fun gate ↦ (gate.get (lit "id")).hashable) = true) .typeError
  return gates

def gateContractErrors (T : PyText) (manifest : Fields) : Except Raised (List Str) := do
  let profile := manifest.get (lit "release_profile")
  raiseIf (¬ profile.hashable = true) .typeError
  let unknown := lit "unknown release_profile " ++ T.repr profile
  match profile with
  | .str name =>
      match profiles.lookup name with
      | some contract =>
          let gates ← readGates manifest
          return contractErrors T name contract manifest gates
      | none => return if name ∈ knownLegacyProfiles then [] else [unknown]
  | _ => return [unknown]

end Henret.Release
