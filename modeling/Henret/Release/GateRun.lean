import Henret.Lib.PyDumps
import Henret.Release.Verify

/-!
# Rendering the gate summary

`GATE-RUN.md` is rendered from a manifest that does not yet name it, so that its
digest can be entered there afterwards.
-/

namespace Henret.Release.GateRun

open Outcome PyJson PyStr Verify

section Render

variable (T : PyText)

def headLines (m : Fields) : Except Raised (List Str) := do
  let version ← m.item (lit "version")
  let generatedBy ← m.item (lit "generated_by")
  let timestamp ← m.item (lit "timestamp_utc")
  let commit ← m.item (lit "git_commit")
  let dirty ← m.item (lit "git_dirty")
  let archive ← m.item (lit "source_archive")
  let name ← archive.item (lit "name")
  let size ← archive.item (lit "size_bytes")
  let tarballSha ← m.item (lit "tarball_sha256")
  let os ← m.item (lit "os")
  let runner ← m.item (lit "runner")
  return [lit "# Henret release gate run - v" ++ T.str version ++ lit "\n",
    lit "- generated_by: `" ++ T.str generatedBy ++ lit "`",
    lit "- release_profile: " ++ T.str (m.get (lit "release_profile")) ++
      lit "  (required_gates_passed: " ++ T.str (m.get (lit "required_gates_passed")) ++ lit ")",
    lit "- timestamp_utc: " ++ T.str timestamp,
    lit "- git_commit: " ++ T.str commit ++ lit "  (dirty: " ++ T.str dirty ++ lit ")",
    lit "- tarball: `" ++ T.str name ++ lit "` (" ++ T.str size ++ lit " bytes)",
    lit "- tarball_sha256: `" ++ T.str tarballSha ++ lit "`",
    lit "- os: " ++ T.str os ++ lit "  runner: " ++ T.str runner ++ lit "\n"]

def hostedLines (m : Fields) : Except Raised (List Str) :=
  if truthy (m.get (lit "hosted_ci")) then do
    let hosted := m.get (lit "hosted_ci")
    let repository ← hosted.item (lit "repository")
    let runId ← hosted.item (lit "run_id")
    let runAttempt ← hosted.item (lit "run_attempt")
    let imageOs ← hosted.item (lit "image_os")
    let imageVersion ← hosted.item (lit "image_version")
    return [lit "- hosted_ci: `" ++ T.str repository ++ lit "` run `" ++ T.str runId ++
      lit "` attempt `" ++ T.str runAttempt ++ lit "`; image `" ++ T.str imageOs ++
      lit "@" ++ T.str imageVersion ++ lit "`\n"]
  else return []

def tableHead : List Str :=
  [lit "| id | evidence_id | gate | criticality | status | ms |",
   lit "|----|-------------|------|-------------|--------|----|"]

def gateRow (gate : Fields) : Except Raised Str := do
  let id ← gate.item (lit "id")
  let name ← gate.item (lit "name")
  let status ← gate.item (lit "status")
  return lit "| " ++ T.str id ++ lit " | " ++
    T.str (gate.getD (lit "evidence_id") (.str (lit "—"))) ++ lit " | " ++ T.str name ++
    lit " | " ++ T.str (gate.getD (lit "criticality") (.str (lit "required"))) ++
    lit " | " ++ T.str status ++ lit " | " ++
    T.str (gate.getD (lit "duration_ms") (.str (lit "-"))) ++ lit " |"

def parameterLines (gate : Fields) : List Str :=
  if truthy (gate.get (lit "parameters")) then
    [lit "\nGate `" ++ T.str (gate.get (lit "evidence_id")) ++ lit "` parameters: `" ++
      dumpsSorted T (gate.get (lit "parameters")) ++ lit "`"]
  else []

def gateLines (gates : List Fields) : Except Raised (List Str) := do
  let ordered ← sortedBy (fun gate ↦ gate.getD (lit "id") (.int 0)) gates
  let rows ← ordered.mapM (gateRow T)
  return tableHead ++ rows ++ ordered.flatMap (parameterLines T)

def renderGateRun (m : Fields) : Except Raised Str := do
  let head ← headLines T m
  let hosted ← hostedLines T m
  let items ← (← m.item (lit "gates")).iterate
  let gates ← items.mapM Json.asDict
  let table ← gateLines T gates
  return (lit "\n").intercalate (head ++ hosted ++ table) ++ lit "\n"

end Render

/-! ## What the rendering needs -/

section Needs

variable {T : PyText} {gates : List Fields}

theorem item_ok {fields : Fields} {key : Str} (h : key ∈ fields.keys) :
    ∃ x, fields.item key = .ok x := by
  obtain ⟨x, hx⟩ := Option.isSome_iff_exists.mp (Fields.mem_keys_iff.mp h)
  rw [Fields.item, hx]
  exact ⟨x, rfl⟩

/-- The entries that the first lines are made of. -/
def headKeys : List Str :=
  [lit "version", lit "generated_by", lit "timestamp_utc", lit "git_commit", lit "git_dirty",
   lit "tarball_sha256", lit "os", lit "runner"]

theorem headLines_ok {m archive : Fields} (hkeys : ∀ key ∈ headKeys, key ∈ m.keys)
    (harchive : m.item (lit "source_archive") = .ok (.obj archive))
    (hname : lit "name" ∈ archive.keys) (hsize : lit "size_bytes" ∈ archive.keys) :
    ∃ lines, headLines T m = .ok lines := by
  obtain ⟨version, hversion⟩ := item_ok (hkeys (lit "version") (by simp [headKeys]))
  obtain ⟨generated, hgenerated⟩ := item_ok (hkeys (lit "generated_by") (by simp [headKeys]))
  obtain ⟨time, htime⟩ := item_ok (hkeys (lit "timestamp_utc") (by simp [headKeys]))
  obtain ⟨commit, hcommit⟩ := item_ok (hkeys (lit "git_commit") (by simp [headKeys]))
  obtain ⟨dirty, hdirty⟩ := item_ok (hkeys (lit "git_dirty") (by simp [headKeys]))
  obtain ⟨sha, hsha⟩ := item_ok (hkeys (lit "tarball_sha256") (by simp [headKeys]))
  obtain ⟨os, hos⟩ := item_ok (hkeys (lit "os") (by simp [headKeys]))
  obtain ⟨runner, hrunner⟩ := item_ok (hkeys (lit "runner") (by simp [headKeys]))
  obtain ⟨name, hname⟩ := item_ok hname
  obtain ⟨size, hsize⟩ := item_ok hsize
  have hname' : (Json.obj archive).item (lit "name") = .ok name := hname
  have hsize' : (Json.obj archive).item (lit "size_bytes") = .ok size := hsize
  rw [headLines, hversion, hgenerated, htime, hcommit, hdirty, harchive, hsha, hos, hrunner]
  simp only [bind_of_ok rfl, hname', hsize']
  exact ⟨_, rfl⟩

/-- The entries of the hosted run that are printed. -/
def hostedKeys : List Str :=
  [lit "repository", lit "run_id", lit "run_attempt", lit "image_os", lit "image_version"]

theorem hostedLines_ok {m : Fields} (h : truthy (m.get (lit "hosted_ci")) = true →
      ∃ hosted : Fields, m.get (lit "hosted_ci") = .obj hosted ∧
        ∀ key ∈ hostedKeys, key ∈ hosted.keys) :
    ∃ lines, hostedLines T m = .ok lines := by
  unfold hostedLines
  split
  · rename_i htruthy
    obtain ⟨hosted, hget, hkeys⟩ := h htruthy
    have hitem : ∀ key ∈ hostedKeys, ∃ x, (Json.obj hosted).item key = .ok x :=
      fun key hkey ↦ item_ok (hkeys key hkey)
    obtain ⟨repository, hrepository⟩ := hitem (lit "repository") (by simp [hostedKeys])
    obtain ⟨run, hrun⟩ := hitem (lit "run_id") (by simp [hostedKeys])
    obtain ⟨attempt, hattempt⟩ := hitem (lit "run_attempt") (by simp [hostedKeys])
    obtain ⟨os, hos⟩ := hitem (lit "image_os") (by simp [hostedKeys])
    obtain ⟨version, hversion⟩ := hitem (lit "image_version") (by simp [hostedKeys])
    simp only [hget, hrepository, hrun, hattempt, hos, hversion]
    exact ⟨_, rfl⟩
  · exact ⟨[], rfl⟩

/-- The entries that a row of the table is made of. -/
def rowKeys : List Str := [lit "id", lit "name", lit "status"]

theorem gateRow_ok {gate : Fields} (h : ∀ key ∈ rowKeys, key ∈ gate.keys) :
    ∃ row, gateRow T gate = .ok row := by
  obtain ⟨id, hid⟩ := item_ok (h (lit "id") (.head _))
  obtain ⟨name, hname⟩ := item_ok (h (lit "name") (.tail _ (.head _)))
  obtain ⟨status, hstatus⟩ := item_ok (h (lit "status") (.tail _ (.tail _ (.head _))))
  rw [gateRow, hid, hname, hstatus]
  exact ⟨_, rfl⟩

theorem gateLines_ok (hids : ∀ gate ∈ gates, ∃ n, gate.get (lit "id") = .int n)
    (hrows : ∀ gate ∈ gates, ∀ key ∈ rowKeys, key ∈ gate.keys) :
    ∃ lines, gateLines T gates = .ok lines := by
  have hkeys : ∀ gate ∈ gates, gate.getD (lit "id") (.int 0) =
      .int ((intOf (gate.get (lit "id"))).getD 0) := by
    intro gate hgate
    obtain ⟨n, hn⟩ := hids gate hgate
    rw [hn, Fields.getD_of_get (by simp) hn]
    rfl
  obtain ⟨ordered, hordered, hperm⟩ := sortedBy_of_int hkeys
  obtain ⟨rows, hmap⟩ : ∃ rows, ordered.mapM (gateRow T) = .ok rows :=
    mapM_ok_of_forall fun gate hgate ↦ gateRow_ok (hrows gate (hperm.mem_iff.mp hgate))
  rw [gateLines, hordered]
  exact ⟨_, bind_ok_iff.mpr ⟨ordered, rfl, bind_ok_iff.mpr ⟨rows, hmap, rfl⟩⟩⟩

theorem renderGateRun_ok {m : Fields} (hhead : ∃ lines, headLines T m = .ok lines)
    (hhosted : ∃ lines, hostedLines T m = .ok lines)
    (hgates : m.item (lit "gates") = .ok (.arr (gates.map .obj)))
    (htable : ∃ lines, gateLines T gates = .ok lines) :
    ∃ text, renderGateRun T m = .ok text := by
  obtain ⟨head, hhead⟩ := hhead
  obtain ⟨hosted, hhosted⟩ := hhosted
  obtain ⟨table, htable⟩ := htable
  have hdicts : (gates.map Json.obj).mapM Json.asDict = .ok gates :=
    Json.mapM_asDict_ok_iff.mpr rfl
  rw [renderGateRun, hhead, hhosted, hgates]
  simp only [bind_of_ok rfl, Json.iterate, hdicts, htable]
  exact ⟨_, rfl⟩

theorem renderGateRun_ne_nil {m : Fields} {text : Str} (h : renderGateRun T m = .ok text) :
    text ≠ [] := by
  simp only [renderGateRun, bind_ok_iff, pure_ok_iff] at h
  obtain ⟨_, -, _, -, _, -, _, -, _, -, _, -, rfl⟩ := h
  exact List.append_ne_nil_of_right_ne_nil _ (List.cons_ne_nil _ _)

end Needs

end Henret.Release.GateRun
