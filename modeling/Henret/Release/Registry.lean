import Henret.Lib.PyJson

/-!
# Gate registries and explorer evidence

The versioned registries assign every numeric gate its semantic evidence name.
The explorer's evidence is accepted only with the canonical keys and values,
without the coercions Python makes between booleans, integers and floats.
-/

namespace Henret.Release

open Outcome PyJson

/-- What a profile demands: the registry's name and its gates. -/
structure Contract where
  registry : Str
  gates : List (ℤ × Str)
deriving DecidableEq

def v2Profile : Str := lit "release-core-v2"
def v2Registry : Str := lit "rfc102-release-core-v2"
def v3Profile : Str := lit "release-core-v3"
def v3Registry : Str := lit "rfc103-release-core-v3"
def v4Profile : Str := lit "release-core-v4"
def v4Registry : Str := lit "rfc104-release-core-v4"

def v2Gates : List (ℤ × Str) :=
  [(0, lit "gate.selftest"),
   (1, lit "build.lean"),
   (2, lit "test.demo"),
   (3, lit "build.examples"),
   (4, lit "test.conformance"),
   (5, lit "docs.symbols"),
   (6, lit "proof.axiom-audit"),
   (7, lit "docs.consistency"),
   (8, lit "rfc.metadata"),
   (9, lit "lint.warning-budget"),
   (10, lit "docs.mdbook")]

def v3Gates : List (ℤ × Str) := v2Gates ++ [(11, lit "test.explorer")]

def v4Gates : List (ℤ × Str) := v3Gates

def profiles : List (Str × Contract) :=
  [(v2Profile, ⟨v2Registry, v2Gates⟩),
   (v3Profile, ⟨v3Registry, v3Gates⟩),
   (v4Profile, ⟨v4Registry, v4Gates⟩)]

theorem v4Contract_mem : (v4Profile, ⟨v4Registry, v4Gates⟩) ∈ profiles :=
  List.mem_of_getElem? (i := 2) rfl

def v3World : Fields :=
  [(lit "maxTask", .int 2), (lit "maxActor", .int 2), (lit "maxMsg", .int 1),
   (lit "maxTime", .int 2)]

def v3ExplorerParameters : Fields := [(lit "world", .obj v3World), (lit "depth", .int 3)]

def v3ExplorerResult : Fields :=
  (lit "schema", .int 1) :: v3ExplorerParameters ++
  [(lit "program_count", .int 25260),
   (lit "well_formed", .bool true),
   (lit "occurrence_unique", .bool true),
   (lit "bridge", .bool true),
   (lit "counterexample_found", .bool true),
   (lit "counterexample_fails", .bool true),
   (lit "counterexample_minimal", .bool true)]

/-! ## Validating explorer evidence; a `ValueError` carries its text -/

def requireExactKeys (T : PyText) (value : Json) (expected : List Str) (label : Str) :
    Except Str Fields :=
  match value with
  | .obj fields =>
      if sameSet (Fields.keys fields) expected then .ok fields
      else .error (label ++ lit " keys must be exactly " ++
        T.str (.arr ((sorted expected).map .str)) ++ lit "; observed " ++
        T.str (.arr ((sorted (Fields.keys fields)).map .str)))
  | _ => .error (label ++ lit " must be a JSON object")

def requireInteger (T : PyText) (label : Str) (expected fields : Fields) (key : Str) :
    Except Str Unit :=
  raiseIf (¬ ((fields.get key).isInt && (fields.get key).eq (expected.get key)) = true)
    (label ++ key ++ lit " must be integer " ++ T.str (expected.get key))

/-- `value is expected` for booleans. -/
def isBool : Json → Json → Bool
  | .bool a, .bool b => a == b
  | _, _ => false

def lowerBool : Json → Str
  | .bool true => lit "true"
  | _ => lit "false"

def requireBoolean (label : Str) (expected fields : Fields) (key : Str) : Except Str Unit :=
  raiseIf (¬ isBool (fields.get key) (expected.get key) = true)
    (label ++ key ++ lit " must be boolean " ++ lowerBool (expected.get key))

def integerKeys : List Str := [lit "schema", lit "depth", lit "program_count"]

def booleanKeys : List Str :=
  sorted (v3ExplorerResult.keys.filter fun key ↦
    decide (key ∉ [lit "schema", lit "world", lit "depth", lit "program_count"]))

def validateResultObject (T : PyText) (result : Json) : Except Str Fields := do
  let result ← requireExactKeys T result v3ExplorerResult.keys (lit "explorer result")
  let world ← requireExactKeys T (result.get (lit "world")) v3World.keys
    (lit "explorer result world")
  v3World.keys.forM (requireInteger T (lit "explorer result world.") v3World world)
  integerKeys.forM (requireInteger T (lit "explorer result ") v3ExplorerResult result)
  booleanKeys.forM (requireBoolean (lit "explorer result ") v3ExplorerResult result)
  return result

def validateManifestEvidence (T : PyText) (parameters result : Json) : Except Str Unit := do
  let result ← validateResultObject T result
  let parameters ← requireExactKeys T parameters v3ExplorerParameters.keys
    (lit "explorer parameters")
  let world ← requireExactKeys T (parameters.get (lit "world")) v3World.keys
    (lit "explorer parameters world")
  v3World.keys.forM (requireInteger T (lit "explorer parameters world.") v3World world)
  requireInteger T (lit "explorer parameters ") v3ExplorerParameters parameters (lit "depth")
  raiseIf (¬ ((parameters.get (lit "world")).eq (result.get (lit "world")) &&
      (parameters.get (lit "depth")).eq (result.get (lit "depth"))) = true)
    (lit "explorer executed/recorded parameters disagree")

/-! ## What accepted evidence is -/

/-- The expected keys and, `world` apart, the expected values. -/
structure Matches (expected fields : Fields) : Prop where
  keys : ∀ key, key ∈ fields.keys ↔ key ∈ expected.keys
  values : ∀ key ∈ expected.keys, key ≠ lit "world" → fields.get key = expected.get key

/-- An object of the expected shape over the canonical world. -/
def IsEvidence (expected : Fields) (value : Json) : Prop :=
  ∃ fields world : Fields, value = .obj fields ∧ fields.get (lit "world") = .obj world ∧
    Matches expected fields ∧ Matches v3World world

structure ValidEvidence (parameters result : Json) : Prop where
  parameters : IsEvidence v3ExplorerParameters parameters
  result : IsEvidence v3ExplorerResult result

theorem requireExactKeys_ok_iff {T : PyText} {value : Json} {expected : List Str} {label : Str}
    {fields : Fields} : requireExactKeys T value expected label = .ok fields ↔
      value = .obj fields ∧ ∀ key, key ∈ fields.keys ↔ key ∈ expected := by
  cases value with
  | obj f =>
      rw [← sameSet_iff, requireExactKeys, Json.obj.injEq]
      by_cases hkeys : sameSet (Fields.keys f) expected = true
      · rw [if_pos hkeys, Except.ok.injEq]
        refine ⟨?_, fun h ↦ h.1⟩
        rintro rfl
        exact ⟨rfl, hkeys⟩
      · rw [if_neg hkeys]
        simp only [reduceCtorEq, false_iff, not_and]
        rintro rfl
        exact hkeys
  | _ => simp [requireExactKeys]

theorem requireInteger_ok {T : PyText} {label key : Str} {expected fields : Fields}
    (hkey : (expected.get key).isInt = true) {u : Unit}
    (h : requireInteger T label expected fields key = .ok u) :
    fields.get key = expected.get key := by
  obtain ⟨n, hn⟩ := Json.isInt_iff.mp hkey
  rw [requireInteger, raiseIf_ok_iff, not_not, hn, Bool.and_eq_true] at h
  obtain ⟨hint, heq⟩ := h
  obtain ⟨m, hm⟩ := Json.isInt_iff.mp hint
  rw [hm, Json.eq, Bool.and_eq_true, Json.same_int] at heq
  rw [hn, hm, heq.1]

theorem requireBoolean_ok {label key : Str} {expected fields : Fields} {u : Unit}
    (h : requireBoolean label expected fields key = .ok u) :
    fields.get key = expected.get key := by
  rw [requireBoolean, raiseIf_ok_iff, not_not] at h
  revert h
  cases fields.get key <;> cases expected.get key <;> simp [isBool]

theorem v3World_isInt : ∀ key ∈ v3World.keys, (v3World.get key).isInt = true := by
  decide +kernel

theorem integerKeys_isInt : ∀ key ∈ integerKeys, (v3ExplorerResult.get key).isInt = true := by
  decide +kernel

theorem resultKeys_cases : ∀ key ∈ v3ExplorerResult.keys,
    key = lit "world" ∨ key ∈ integerKeys ∨ key ∈ booleanKeys := by
  decide +kernel

theorem world_matches {T : PyText} {label : Str} {world : Fields} {u : Unit}
    (hkeys : ∀ key, key ∈ world.keys ↔ key ∈ v3World.keys)
    (h : v3World.keys.forM (requireInteger T label v3World world) = .ok u) :
    Matches v3World world := by
  refine ⟨hkeys, ?_⟩
  intro key hkey _
  exact requireInteger_ok (v3World_isInt key hkey) (forM_ok_iff.mp h key hkey)

theorem validateResultObject_ok {T : PyText} {result : Json} {fields : Fields}
    (h : validateResultObject T result = .ok fields) : IsEvidence v3ExplorerResult result := by
  simp only [validateResultObject, bind_ok_iff, requireExactKeys_ok_iff] at h
  obtain ⟨f, ⟨rfl, hkeys⟩, world, ⟨hworld, hworldKeys⟩, _, hw, _, hints, _, hbools, -⟩ := h
  refine ⟨f, world, rfl, hworld, ⟨hkeys, ?_⟩, world_matches hworldKeys hw⟩
  intro key hkey hne
  rcases resultKeys_cases key hkey with rfl | hint | hbool
  · exact absurd rfl hne
  · exact requireInteger_ok (integerKeys_isInt key hint) (forM_ok_iff.mp hints key hint)
  · exact requireBoolean_ok (forM_ok_iff.mp hbools key hbool)

theorem validateManifestEvidence_ok {T : PyText} {parameters result : Json} {u : Unit}
    (h : validateManifestEvidence T parameters result = .ok u) :
    ValidEvidence parameters result := by
  simp only [validateManifestEvidence, bind_ok_iff, requireExactKeys_ok_iff] at h
  obtain ⟨r, hresult, p, ⟨rfl, hkeys⟩, world, ⟨hworld, hworldKeys⟩, _, hw, _, hdepth, -⟩ := h
  refine ⟨⟨p, world, rfl, hworld, ⟨hkeys, ?_⟩, world_matches hworldKeys hw⟩,
    validateResultObject_ok hresult⟩
  intro key hkey hne
  have hcases : ∀ key ∈ v3ExplorerParameters.keys, key = lit "world" ∨ key = lit "depth" := by
    decide +kernel
  rcases hcases key hkey with rfl | rfl
  · exact absurd rfl hne
  · exact requireInteger_ok (by decide +kernel) hdepth

end Henret.Release
