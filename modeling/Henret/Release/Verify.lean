import Henret.Archive.Validate
import Henret.Release.GateContract

/-!
# Verifying a published release

The verifier reads a manifest beside a source archive.  What it accepts is
bound to the bytes of the archive, and for the current profile to the policy
and the checkers that the archived commit tracks.
-/

namespace Henret.Release.Verify

open Outcome PyJson PyStr PosixPath

/-- The libraries behind the verifier.  `loads` decodes bytes and rejects
duplicate keys; its errors, like those of the tar reader, carry their text. -/
structure Library where
  sha256 : List UInt8 → Str
  loads : List UInt8 → Except Str Json
  tarfile : List UInt8 → Except Str (List Archive.TarInfo)

/-- The files that the arguments name, where they exist, and the flags. -/
structure Invocation where
  manifest : Option (List UInt8)
  tarball : Option (List UInt8)
  gateRun : Option (Str × Option (List UInt8)) := none
  requireV2 : Bool := false
  requireCurrent : Bool := false

/-- `bool(x)`. -/
def truthy : Json → Bool
  | .null | .bool false | .int 0 | .str [] | .arr [] | .obj [] => false
  | .float (.finite q) => decide (q ≠ 0)
  | _ => true

def activeProfile : Str := v4Profile

def policyPath : Str := lit "ci/supply-chain.json"

def rfc104ArchiveFiles : List (Str × Str) :=
  [(policyPath, rfc104PolicyHashKey),
   (lit "scripts/ci_supply_chain.py", lit "ci_supply_chain_py_sha256"),
   (lit "scripts/install_ci_tool.py", lit "install_ci_tool_py_sha256")]

/-- `name == path or name.endswith("/" + path)`. -/
def Named (path name : Str) : Prop := name = path ∨ sep :: path <:+ name

instance (path name : Str) : Decidable (Named path name) := inferInstanceAs (Decidable (_ ∨ _))

/-- The regular files of an archive at a path below its root or below a directory. -/
def membersAt (infos : List Archive.TarInfo) (path : Str) : List Archive.TarInfo :=
  infos.filter fun info ↦ info.IsFile ∧ Named path info.name

def archivedBytes (infos : List Archive.TarInfo) (path : Str) : List UInt8 :=
  match membersAt infos path with
  | [info] => info.data
  | _ => []

section Verifier

variable (T : PyText) (L : Library)

def memberErrors (infos : List Archive.TarInfo) (path : Str) : List Str :=
  report (decide ((membersAt infos path).length ≠ 1))
    (lit "source archive must contain exactly one " ++ path ++ lit "; observed " ++
      T.str (.int (membersAt infos path).length))

def gatePolicyErrors (m : Fields) (infos : List Archive.TarInfo) : List Str :=
  match m.get (lit "gate_policy") with
  | .obj gatePolicy =>
      rfc104ArchiveFiles.flatMap fun file ↦
        report (!(Fields.get gatePolicy file.2).eq (.str (L.sha256 (archivedBytes infos file.1))))
          (lit "gate_policy " ++ file.2 ++ lit " disagrees with source archive " ++ file.1)
  | _ => [lit "manifest gate_policy evidence is missing"]

def policyBytesErrors (m : Fields) (infos : List Archive.TarInfo) : List Str :=
  match L.loads (archivedBytes infos policyPath) with
  | .error exc => [lit "source archive supply-chain policy is invalid: " ++ exc]
  | .ok archivedPolicy =>
      match m.get (lit "supply_chain") with
      | .obj supplyChain =>
          let embedded := supplyChain.filter fun entry ↦ decide (entry.1 ≠ lit "policy_sha256")
          report (!archivedPolicy.eq (.obj embedded))
            (lit "embedded supply-chain policy disagrees with source archive") ++
          report (!(Fields.get supplyChain (lit "policy_sha256")).eq
              (.str (L.sha256 (archivedBytes infos policyPath))))
            (lit "supply_chain.policy_sha256 disagrees with source archive") ++
          gatePolicyErrors L m infos
      | _ => [lit "manifest supply_chain evidence is missing"]

def sourcePolicyErrors (m : Fields) (tarball : List UInt8) : List Str :=
  if (m.get (lit "release_profile")).eq (.str v4Profile) then
    match L.tarfile tarball with
    | .error exc => [lit "cannot inspect source archive supply-chain policy: " ++ exc]
    | .ok infos =>
        match rfc104ArchiveFiles.flatMap fun file ↦ memberErrors T infos file.1 with
        | [] => policyBytesErrors L m infos
        | errors => errors
  else []

def requirementErrors (m : Fields) (required : Bool) (profile : Str) : List Str :=
  report (required && !(m.get (lit "release_profile")).eq (.str profile))
    (lit "expected release_profile " ++ profile ++ lit ", observed " ++
      T.repr (m.get (lit "release_profile")))

def sourceArchiveErrors (m : Fields) (tarball : List UInt8) : Except Raised (List Str) :=
  if truthy (m.get (lit "source_archive")) then do
    let sa ← (m.get (lit "source_archive")).asDict
    let size := sa.get (lit "size_bytes")
    return report (!(sa.get (lit "sha256")).eq (.str (L.sha256 tarball)))
        (lit "source_archive.sha256 mismatch") ++
      report (!(size.same .null || size.same (.int tarball.length)))
        (lit "source_archive.size_bytes mismatch: file " ++ T.str (.int tarball.length) ++
          lit " != manifest " ++ T.str size)
  else return []

def requiredGates (gates : List Fields) : List Fields :=
  gates.filter fun g ↦
    (g.getD (lit "criticality") (.str (lit "required"))).eq (.str (lit "required"))

def recordErrors (m : Fields) : Except Raised (List Str) := do
  let gates := m.getD (lit "gates") (.arr [])
  let items ← gates.iterate
  let records ← items.mapM Json.asDict
  return report (!truthy gates) (lit "manifest lists no gate records") ++
    (requiredGates records).flatMap fun g ↦
      report (!(g.get (lit "status")).eq (.str (lit "pass")))
        (lit "required gate " ++ T.str (g.get (lit "id")) ++ lit " (" ++
          T.str (g.get (lit "name")) ++ lit ") status=" ++ T.repr (g.get (lit "status")))

def gateRunErrors (m : Fields) (gateRun : Option (Str × Option (List UInt8))) :
    Except Raised (List Str) :=
  match gateRun with
  | none => return []
  | some (path, none) => return [lit "GATE-RUN file missing: " ++ path]
  | some (_, some bytes) =>
      if truthy (m.get (lit "human_summary")) then do
        let hs ← (m.get (lit "human_summary")).asDict
        return report (!(hs.get (lit "sha256")).eq (.str (L.sha256 bytes)))
          (lit "human_summary.sha256 mismatch (GATE-RUN.md drifted)")
      else return []

/-- The errors found in a manifest that is an object. -/
def manifestErrors (inv : Invocation) (m : Fields) (tarball : List UInt8) :
    Except Raised (List Str) := do
  let contract ← gateContractErrors T m
  let archive ← sourceArchiveErrors T L m tarball
  let records ← recordErrors T m
  let gateRun ← gateRunErrors L m inv.gateRun
  return contract ++
    requirementErrors T m inv.requireV2 v2Profile ++
    requirementErrors T m inv.requireCurrent activeProfile ++
    sourcePolicyErrors T L m tarball ++
    report (!(m.get (lit "tarball_sha256")).eq (.str (L.sha256 tarball)))
      (lit "tarball_sha256 mismatch: file " ++ L.sha256 tarball ++ lit " != manifest " ++
        T.str (m.get (lit "tarball_sha256"))) ++
    archive ++ records ++
    report (isBool (m.get (lit "required_gates_passed")) (.bool false))
      (lit "manifest required_gates_passed is false") ++
    gateRun

/-- The exit code. -/
def main (inv : Invocation) : Except Raised ℕ :=
  match inv.manifest, inv.tarball with
  | some manifest, some tarball =>
      match L.loads manifest with
      | .ok (.obj m) => do
          let errors ← manifestErrors T L inv m tarball
          return if errors = [] then 0 else 1
      | _ => return 1
  | _, _ => return 2

end Verifier

/-! ## What an accepted manifest is bound to -/

/-- The manifest records what the archive holds at the paths of the policy. -/
structure Bound (L : Library) (m : Fields) (infos : List Archive.TarInfo) : Prop where
  files : ∀ file ∈ rfc104ArchiveFiles, ∃ info, membersAt infos file.1 = [info]
  hashes : ∃ gatePolicy : Fields, m.get (lit "gate_policy") = .obj gatePolicy ∧
    ∀ file ∈ rfc104ArchiveFiles,
      gatePolicy.get file.2 = .str (L.sha256 (archivedBytes infos file.1))
  policy : ∃ (supplyChain : Fields) (archived : Json),
    m.get (lit "supply_chain") = .obj supplyChain ∧
    L.loads (archivedBytes infos policyPath) = .ok archived ∧
    archived.eq (.obj (supplyChain.filter fun entry ↦
      decide (entry.1 ≠ lit "policy_sha256"))) = true ∧
    supplyChain.get (lit "policy_sha256") = .str (L.sha256 (archivedBytes infos policyPath))

theorem archivedBytes_eq {infos : List Archive.TarInfo} {path : Str} {info : Archive.TarInfo}
    (h : membersAt infos path = [info]) : archivedBytes infos path = info.data := by
  rw [archivedBytes, h]

section Accepted

variable {T : PyText} {L : Library} {inv : Invocation} {m : Fields} {tarball : List UInt8}

theorem policyBytesErrors_nil {infos : List Archive.TarInfo}
    (hfiles : ∀ file ∈ rfc104ArchiveFiles, ∃ info, membersAt infos file.1 = [info])
    (h : policyBytesErrors L m infos = []) : Bound L m infos := by
  unfold policyBytesErrors at h
  split at h
  · cases h
  · rename_i archived hloads
    split at h
    · rename_i supplyChain hsupply
      simp only [List.append_eq_nil_iff, report_eq_nil_iff, Bool.not_eq_false', Json.eq_str] at h
      obtain ⟨⟨hpolicy, hhash⟩, hgate⟩ := h
      refine ⟨hfiles, ?_, supplyChain, archived, hsupply, hloads, hpolicy, hhash⟩
      unfold gatePolicyErrors at hgate
      split at hgate
      · rename_i gatePolicy hgatePolicy
        refine ⟨gatePolicy, hgatePolicy, fun file hfile ↦ ?_⟩
        have hnil := List.flatMap_eq_nil_iff.mp hgate file hfile
        rw [report_eq_nil_iff, Bool.not_eq_false', Json.eq_str] at hnil
        exact hnil
      · cases hgate
    · cases h

theorem sourcePolicyErrors_nil (hprofile : m.get (lit "release_profile") = .str v4Profile)
    (h : sourcePolicyErrors T L m tarball = []) :
    ∃ infos, L.tarfile tarball = .ok infos ∧ Bound L m infos := by
  rw [sourcePolicyErrors, hprofile, if_pos (Json.eq_str.mpr rfl)] at h
  split at h
  · cases h
  · rename_i infos hinfos
    split at h
    · rename_i hfiles
      refine ⟨infos, hinfos, policyBytesErrors_nil (fun file hfile ↦ ?_) h⟩
      have hnil := List.flatMap_eq_nil_iff.mp hfiles file hfile
      rw [memberErrors, report_eq_nil_iff, decide_eq_false_iff_not, not_not] at hnil
      exact List.length_eq_one_iff.mp hnil
    · rename_i hne
      exact absurd h hne

/-- An accepted manifest is a JSON object without errors. -/
theorem main_ok_zero_iff : main T L inv = .ok 0 ↔
    ∃ manifest tarball m, inv.manifest = some manifest ∧ inv.tarball = some tarball ∧
      L.loads manifest = .ok (.obj m) ∧ manifestErrors T L inv m tarball = .ok [] := by
  unfold main
  constructor
  · intro h
    split at h
    · rename_i manifest tarball hmanifest htarball
      split at h
      · rename_i m hloads
        obtain ⟨errors, herrors, hcode⟩ := bind_ok_iff.mp h
        rw [pure_ok_iff] at hcode
        by_cases hnil : errors = []
        · rw [hnil] at herrors
          exact ⟨manifest, tarball, m, hmanifest, htarball, hloads, herrors⟩
        · rw [if_neg hnil] at hcode
          cases hcode
      · rw [pure_ok_iff] at h
        cases h
    · rw [pure_ok_iff] at h
      cases h
  · rintro ⟨manifest, tarball, m, hmanifest, htarball, hloads, herrors⟩
    simp only [hmanifest, htarball, hloads, herrors]
    rfl

/-- The verdict on files that are there. -/
theorem main_ok_zero_iff_of_loads {manifest : List UInt8} (hmanifest : inv.manifest = some manifest)
    (htarball : inv.tarball = some tarball) (hloads : L.loads manifest = .ok (.obj m)) :
    main T L inv = .ok 0 ↔ manifestErrors T L inv m tarball = .ok [] := by
  constructor
  · intro h
    obtain ⟨manifest', tarball', m', hmanifest', htarball', hloads', herrors⟩ :=
      main_ok_zero_iff.mp h
    obtain rfl : manifest = manifest' := Option.some.inj (hmanifest.symm.trans hmanifest')
    obtain rfl : tarball = tarball' := Option.some.inj (htarball.symm.trans htarball')
    obtain rfl : m = m' := Json.obj.inj (Except.ok.inj (hloads.symm.trans hloads'))
    exact herrors
  · intro herrors
    exact main_ok_zero_iff.mpr ⟨manifest, tarball, m, hmanifest, htarball, hloads, herrors⟩

structure Checks (T : PyText) (L : Library) (inv : Invocation) (m : Fields)
    (tarball : List UInt8) : Prop where
  contract : gateContractErrors T m = .ok []
  current : inv.requireCurrent = true → m.get (lit "release_profile") = .str activeProfile
  sourcePolicy : sourcePolicyErrors T L m tarball = []
  tarball : m.get (lit "tarball_sha256") = .str (L.sha256 tarball)
  gateRun : gateRunErrors L m inv.gateRun = .ok []

theorem manifestErrors_nil (h : manifestErrors T L inv m tarball = .ok []) :
    Checks T L inv m tarball := by
  simp only [manifestErrors, bind_ok_iff, pure_ok_iff, List.append_eq_nil_iff] at h
  obtain ⟨_, hcontract, _, -, _, -, _, hgateRun,
    ⟨⟨⟨⟨⟨⟨⟨rfl, -⟩, hcurrent⟩, hpolicy⟩, htarball⟩, -⟩, -⟩, -⟩, rfl⟩ := h
  rw [report_eq_nil_iff, Bool.not_eq_false', Json.eq_str] at htarball
  refine ⟨hcontract, fun hrequired ↦ ?_, hpolicy, htarball, hgateRun⟩
  rw [requirementErrors, report_eq_nil_iff, hrequired, Bool.true_and, Bool.not_eq_false',
    Json.eq_str] at hcurrent
  exact hcurrent

/-- Once these checks of a current manifest pass, the summary decides. -/
theorem manifestErrors_eq_nil_iff (hv2 : inv.requireV2 = false)
    (hcontract : gateContractErrors T m = .ok [])
    (hprofile : m.get (lit "release_profile") = .str activeProfile)
    (hpolicy : sourcePolicyErrors T L m tarball = [])
    (htarball : m.get (lit "tarball_sha256") = .str (L.sha256 tarball))
    (harchive : sourceArchiveErrors T L m tarball = .ok [])
    (hrecords : recordErrors T m = .ok [])
    (hpassed : m.get (lit "required_gates_passed") = .bool true) :
    manifestErrors T L inv m tarball = .ok [] ↔ gateRunErrors L m inv.gateRun = .ok [] := by
  refine ⟨fun h ↦ (manifestErrors_nil h).gateRun, fun hgateRun ↦ ?_⟩
  have hcurrent : requirementErrors T m inv.requireCurrent activeProfile = [] := by
    rw [requirementErrors, hprofile, Json.eq_str.mpr rfl, report_eq_nil_iff, Bool.not_true,
      Bool.and_false]
  have hold : requirementErrors T m inv.requireV2 v2Profile = [] := by
    rw [requirementErrors, hv2, Bool.false_and]
    rfl
  rw [manifestErrors, hcontract, harchive, hrecords, hgateRun, hpolicy, hcurrent, hold, htarball,
    hpassed, Json.eq_str.mpr rfl]
  rfl

/-- The checks of the current profile leave its whole contract. -/
theorem exists_gateContract (hprofile : m.get (lit "release_profile") = .str v4Profile)
    (h : gateContractErrors T m = .ok []) :
    ∃ gates, GateContract v4Profile ⟨v4Registry, v4Gates⟩ m gates := by
  have hlookup : profiles.lookup v4Profile = some ⟨v4Registry, v4Gates⟩ := rfl
  simp only [gateContractErrors, hprofile, hlookup, bind_ok_iff, pure_ok_iff] at h
  obtain ⟨_, -, gates, hgates, herrors⟩ := h
  exact ⟨gates, contractErrors_nil v4Contract_mem hgates herrors⟩

end Accepted

/-! ## Archives of commits -/

open Archive (Tree TrackedEntry TarInfo SetOrder contents sortKey)

/-- A regular file that the commit tracks at a path or below a directory. -/
structure TrackedAt (t : Tree) (path : Str) (e : TrackedEntry) : Prop where
  mem : e ∈ t.entries
  file : e.mode ≠ .symlink
  named : Named path e.path

theorem ofMember_entryMember (time : ℤ) {e : TrackedEntry} (h : e.mode ≠ .symlink) :
    (TarInfo.ofMember time (Archive.entryMember e)).IsFile ∧
      (TarInfo.ofMember time (Archive.entryMember e)).name = e.path ∧
      (TarInfo.ofMember time (Archive.entryMember e)).data = e.blob := by
  obtain ⟨hkind, hdata⟩ := Archive.entryMember_of_file h
  refine ⟨?_, ?_, ?_⟩
  · change (Archive.entryMember e).kind ∈ _
    rw [hkind]
    decide
  · rw [TarInfo.ofMember, if_neg (Archive.entryMember_kind_ne e), Archive.entryMember_path]
  · change (Archive.entryMember e).payload = _
    rw [Archive.Member.payload, if_pos hkind, hdata]

section Members

variable {order : SetOrder} {t : Tree} {dirs : Finset (List CodePoint)} {path : Str}

theorem mem_tracked_iff {member : Archive.Member} :
    (member ∈ contents order t dirs ∧ (TarInfo.ofMember t.timestamp member).IsFile ∧
      Named path (TarInfo.ofMember t.timestamp member).name) ↔
      ∃ e, TrackedAt t path e ∧ Archive.entryMember e = member := by
  constructor
  · rintro ⟨hmember, hfile, hnamed⟩
    rcases Archive.mem_contents.mp hmember with ⟨d, -, rfl⟩ | ⟨e, he, rfl⟩
    · change ([53] : List UInt8) ∈ _ at hfile
      exact absurd hfile (by decide)
    · have hsymlink : e.mode ≠ .symlink := by
        intro hmode
        change (Archive.entryMember e).kind ∈ _ at hfile
        rw [(Archive.entryMember_of_symlink hmode).1] at hfile
        exact absurd hfile (by decide)
      rw [(ofMember_entryMember t.timestamp hsymlink).2.1] at hnamed
      exact ⟨e, ⟨he, hsymlink, hnamed⟩, rfl⟩
  · rintro ⟨e, he, rfl⟩
    obtain ⟨hfile, hname, -⟩ := ofMember_entryMember t.timestamp he.file
    refine ⟨Archive.mem_contents.mpr (Or.inr ⟨e, he.mem, rfl⟩), hfile, ?_⟩
    rw [hname]
    exact he.named

/-- The only file of the archive at a path is the only tracked one. -/
theorem trackedAt_of_membersAt {info : TarInfo}
    (h : membersAt ((KeySort.sortOn sortKey (contents order t dirs)).map
      (TarInfo.ofMember t.timestamp)) path = [info]) :
    ∃ e, TrackedAt t path e ∧ info.data = e.blob ∧ ∀ e', TrackedAt t path e' → e' = e := by
  have hmem : ∀ x, x = info ↔ (∃ member ∈ contents order t dirs,
      TarInfo.ofMember t.timestamp member = x) ∧ x.IsFile ∧ Named path x.name := by
    intro x
    rw [← List.mem_singleton, ← h, membersAt, List.mem_filter, List.mem_map, decide_eq_true_eq]
    simp only [KeySort.mem_sortOn]
  obtain ⟨⟨member, hmember, rfl⟩, hfile, hnamed⟩ := (hmem info).mp rfl
  obtain ⟨e, he, rfl⟩ := mem_tracked_iff.mp ⟨hmember, hfile, hnamed⟩
  obtain ⟨-, hname, hdata⟩ := ofMember_entryMember t.timestamp he.file
  refine ⟨e, he, hdata, fun e' he' ↦ ?_⟩
  obtain ⟨hmember', hfile', hnamed'⟩ := mem_tracked_iff.mpr ⟨e', he', rfl⟩
  have hsame := (hmem _).mpr ⟨⟨_, hmember', rfl⟩, hfile', hnamed'⟩
  have hname' := (ofMember_entryMember t.timestamp he'.file).2.1
  rw [hsame, hname] at hname'
  exact List.inj_on_of_nodup_map t.nodup he'.mem he.mem hname'.symm

/-- The only tracked file at a path is the only file of the archive there. -/
theorem membersAt_of_trackedAt {e : TrackedEntry} (he : TrackedAt t path e)
    (honly : ∀ e', TrackedAt t path e' → e' = e) :
    membersAt ((KeySort.sortOn sortKey (contents order t dirs)).map
      (TarInfo.ofMember t.timestamp)) path =
      [TarInfo.ofMember t.timestamp (Archive.entryMember e)] := by
  have hnodup : (KeySort.sortOn sortKey (contents order t dirs)).Nodup :=
    (KeySort.sortOn_perm _ _).nodup_iff.mpr (Archive.contents_paths_nodup order t dirs).of_map
  rw [membersAt, List.filter_map]
  refine congrArg (List.map (TarInfo.ofMember t.timestamp))
    (List.perm_singleton.mp ?_ : _ = [Archive.entryMember e])
  rw [List.perm_ext_iff_of_nodup (hnodup.filter _) (List.nodup_singleton _)]
  intro member
  rw [List.mem_singleton, List.mem_filter, KeySort.mem_sortOn, Function.comp_apply,
    decide_eq_true_eq, mem_tracked_iff]
  constructor
  · rintro ⟨e', he', rfl⟩
    rw [honly e' he']
  · rintro rfl
    exact ⟨e, he, rfl⟩

end Members

section Commit

variable {T : PyText} {L : Library} {inv : Invocation} {crc32 : List UInt8 → ℕ}

theorem tarfile_commit (hread : Archive.ReadsCanonical crc32 fun bytes ↦ (L.tarfile bytes).toOption)
    {order : SetOrder} {t : Tree} {tarball : List UInt8} {infos : List TarInfo}
    (hbuild : Archive.archiveBytes crc32 order t = some (.ok tarball))
    (hinfos : L.tarfile tarball = .ok infos) :
    ∃ dirs, infos = (KeySort.sortOn sortKey (contents order t dirs)).map
      (TarInfo.ofMember t.timestamp) := by
  obtain ⟨dirs, -, heq⟩ := Archive.tarfile_archiveBytes hread hbuild
  rw [hinfos] at heq
  exact ⟨dirs, Option.some.inj heq⟩

/-- A manifest that is accepted with the archive of a commit meets the current
contract, and the policy and checker hashes it records are those of the files
that the commit tracks; the embedded policy is the tracked one. -/
theorem main_binds_commit
    (hread : Archive.ReadsCanonical crc32 fun bytes ↦ (L.tarfile bytes).toOption)
    {order : SetOrder} {t : Tree} {tarball : List UInt8}
    (hbuild : Archive.archiveBytes crc32 order t = some (.ok tarball))
    (htarball : inv.tarball = some tarball) (hcurrent : inv.requireCurrent = true)
    (h : main T L inv = .ok 0) :
    ∃ (manifest : List UInt8) (m gatePolicy supplyChain : Fields) (gates : List Fields),
      inv.manifest = some manifest ∧ L.loads manifest = .ok (.obj m) ∧
      GateContract v4Profile ⟨v4Registry, v4Gates⟩ m gates ∧
      m.get (lit "tarball_sha256") = .str (L.sha256 tarball) ∧
      m.get (lit "gate_policy") = .obj gatePolicy ∧
      m.get (lit "supply_chain") = .obj supplyChain ∧
      (∀ file ∈ rfc104ArchiveFiles, ∃ e, TrackedAt t file.1 e ∧
        (∀ e', TrackedAt t file.1 e' → e' = e) ∧
        gatePolicy.get file.2 = .str (L.sha256 e.blob)) ∧
      ∃ e archived, TrackedAt t policyPath e ∧ L.loads e.blob = .ok archived ∧
        archived.eq (.obj (supplyChain.filter fun entry ↦
          decide (entry.1 ≠ lit "policy_sha256"))) = true ∧
        supplyChain.get (lit "policy_sha256") = .str (L.sha256 e.blob) := by
  obtain ⟨manifest, tarball', m, hmanifest, htarball', hloads, herrors⟩ := main_ok_zero_iff.mp h
  obtain rfl : tarball = tarball' := Option.some.inj (htarball.symm.trans htarball')
  have hchecks := manifestErrors_nil herrors
  have hprofile := hchecks.current hcurrent
  obtain ⟨gates, hcontract⟩ := exists_gateContract hprofile hchecks.contract
  obtain ⟨infos, hinfos, hbound⟩ := sourcePolicyErrors_nil hprofile hchecks.sourcePolicy
  obtain ⟨dirs, rfl⟩ := tarfile_commit hread hbuild hinfos
  obtain ⟨gatePolicy, hgatePolicy, hhashes⟩ := hbound.hashes
  obtain ⟨supplyChain, archived, hsupply, hpolicy, heq, hhash⟩ := hbound.policy
  refine ⟨manifest, m, gatePolicy, supplyChain, gates, hmanifest, hloads, hcontract,
    hchecks.tarball, hgatePolicy, hsupply, ?_, ?_⟩
  · intro file hfile
    obtain ⟨info, hinfo⟩ := hbound.files file hfile
    obtain ⟨e, he, hdata, honly⟩ := trackedAt_of_membersAt hinfo
    refine ⟨e, he, honly, ?_⟩
    rw [hhashes file hfile, archivedBytes_eq hinfo, hdata]
  · obtain ⟨info, hinfo⟩ := hbound.files (policyPath, rfc104PolicyHashKey) (.head _)
    obtain ⟨e, he, hdata, -⟩ := trackedAt_of_membersAt hinfo
    rw [archivedBytes_eq hinfo, hdata] at hpolicy hhash
    exact ⟨e, archived, he, hpolicy, heq, hhash⟩

/-! A commit that tracks the policy and two empty checkers. -/

def quoted (s : Str) : Str := lit "\"" ++ s ++ lit "\""

mutual
/-- `json.dumps` of values without floats, negative numbers and escaped characters. -/
def dumps : Json → Str
  | .null | .float _ => lit "null"
  | .bool b => lit (if b then "true" else "false")
  | .int n => (Nat.toDigits 10 n.toNat).map CodePoint.ofChar
  | .str s => quoted s
  | .arr xs => lit "[" ++ dumpsItems xs ++ lit "]"
  | .obj fields => lit "\x7b" ++ dumpsFields fields ++ lit "\x7d"

def dumpsItems : List Json → Str
  | [] => []
  | [x] => dumps x
  | x :: xs => dumps x ++ lit "," ++ dumpsItems xs

def dumpsFields : List (Str × Json) → Str
  | [] => []
  | [(k, x)] => quoted k ++ lit ":" ++ dumps x
  | (k, x) :: fields => quoted k ++ lit ":" ++ dumps x ++ lit "," ++ dumpsFields fields
end

def bytesOf (x : Json) : List UInt8 := (encodeUtf8 (dumps x)).getD []

/-- A policy that pins nothing. -/
def emptyPolicy : Fields :=
  [(lit "schema", .int 1), (lit "actions", .obj []), (lit "tools", .obj []),
   (lit "workflow_tools", .obj []), (lit "workflow_sha256", .obj [])]

def policyHash : Str := lit "38a7d856c0d24e2186a56fb2fb1762b6e304b56584394dd119964dc2d0d9c835"

def emptyHash : Str := lit "e3b0c44298fc1c149afbf4c8996fb92427ae41e4649b934ca495991b7852b855"

def sourceHash : Str := lit "4e4d4bb1ade1caa1db6dcf91b0d3b84d8d7e74aed6758ba4d0273250789882f4"

/-- The sample manifest for the commit below. -/
@[irreducible] def releaseManifest : Fields :=
  [(lit "tarball_sha256", .str sourceHash),
   (lit "gate_policy", .obj
     [(rfc104PolicyHashKey, .str policyHash),
      (lit "ci_supply_chain_py_sha256", .str emptyHash),
      (lit "install_ci_tool_py_sha256", .str emptyHash)]),
   (lit "supply_chain", .obj ((lit "policy_sha256", .str policyHash) :: emptyPolicy))] ++
  sampleManifest.filter fun entry ↦ decide (entry.1 ∉ [lit "gate_policy", lit "supply_chain"])

def policyEntry : TrackedEntry := ⟨policyPath, .regular, bytesOf (.obj emptyPolicy)⟩

def checkerEntry : TrackedEntry := ⟨lit "scripts/ci_supply_chain.py", .regular, []⟩

def installerEntry : TrackedEntry := ⟨lit "scripts/install_ci_tool.py", .regular, []⟩

def releaseTree : Tree where
  entries := [policyEntry, checkerEntry, installerEntry]
  timestamp := 5
  nodup := by decide +kernel
  files := by decide +kernel

@[irreducible] def releaseMembers : List Archive.Member :=
  [Archive.directoryMember (lit "ci"), Archive.entryMember policyEntry,
   Archive.directoryMember (lit "scripts"), Archive.entryMember checkerEntry,
   Archive.entryMember installerEntry]

def releaseCrc32 : List UInt8 → ℕ := fun _ ↦ 1753162900

def releaseSha256 (bytes : List UInt8) : Str :=
  if bytes = bytesOf (.obj emptyPolicy) then policyHash
  else if bytes = [] then emptyHash
  else sourceHash

def releaseTarfile (bytes : List UInt8) : Except Str (List TarInfo) :=
  match Archive.readArchive releaseCrc32 bytes with
  | some entries => .ok (entries.map TarInfo.ofEntry)
  | none => .error (lit "unexpected end of data")

/-- The libraries on the files of a release with this manifest. -/
def libraryOf (m : Fields) : Library where
  sha256 := releaseSha256
  loads bytes :=
    if bytes = bytesOf (.obj emptyPolicy) then .ok (.obj emptyPolicy)
    else if bytes = bytesOf (.obj m) then .ok (.obj m)
    else .error (lit "invalid JSON")
  tarfile := releaseTarfile

theorem libraryOf_sha256 (m : Fields) : (libraryOf m).sha256 = releaseSha256 := rfl

theorem libraryOf_tarfile (m : Fields) : (libraryOf m).tarfile = releaseTarfile := rfl

theorem libraryOf_loads_policy (m : Fields) :
    (libraryOf m).loads (bytesOf (.obj emptyPolicy)) = .ok (.obj emptyPolicy) := by
  simp only [libraryOf, if_true]

/-- A text of an object begins with a brace, a quote and its first key. -/
theorem dumps_obj (key : Str) (x : Json) (fields : Fields) : ∃ rest,
    dumps (.obj ((key, x) :: fields)) = lit "\x7b" ++ lit "\"" ++ key ++ lit "\"" ++ rest := by
  cases fields with
  | nil => exact ⟨lit ":" ++ dumps x ++ lit "\x7d", by simp [dumps, dumpsFields, quoted]⟩
  | cons entry fields =>
      exact ⟨lit ":" ++ dumps x ++ lit "," ++ dumpsFields (entry :: fields) ++ lit "\x7d", by
        simp [dumps, dumpsFields, quoted]⟩

/-- The policy begins with its schema. -/
theorem bytesOf_ne {key : Str} {x : Json} {fields : Fields}
    (hkey : ¬ key <+: lit "schema" ∧ ¬ lit "schema" <+: key) :
    bytesOf (.obj ((key, x) :: fields)) ≠ bytesOf (.obj emptyPolicy) := by
  intro heq
  unfold bytesOf at heq
  obtain ⟨bytes, hbytes⟩ : ∃ bytes, encodeUtf8 (dumps (.obj emptyPolicy)) = some bytes :=
    Option.isSome_iff_exists.mp (by decide +kernel)
  obtain ⟨rest, hrest⟩ := dumps_obj key x fields
  obtain ⟨rest', hrest'⟩ := dumps_obj (lit "schema") (.int 1) emptyPolicy.tail
  have hpolicy : dumps (.obj emptyPolicy) = _ := hrest'
  have hne : bytes ≠ [] := by
    rintro rfl
    have hnil := eq_nil_of_encodeUtf8 hbytes
    rw [hpolicy] at hnil
    simp [lit] at hnil
  cases hmanifest : encodeUtf8 (dumps (.obj ((key, x) :: fields))) with
  | none =>
      rw [hmanifest, hbytes] at heq
      exact hne heq.symm
  | some bytes' =>
      rw [hmanifest, hbytes] at heq
      obtain rfl : bytes' = bytes := heq
      have hdumps := encodeUtf8_injective hmanifest hbytes
      rw [hrest, hpolicy] at hdumps
      simp only [List.append_assoc] at hdumps
      have hsuffix := List.append_cancel_left (List.append_cancel_left hdumps)
      rcases List.append_eq_append_iff.mp hsuffix with ⟨u, hu, -⟩ | ⟨u, hu, -⟩
      · exact hkey.1 ⟨u, hu.symm⟩
      · exact hkey.2 ⟨u, hu.symm⟩

theorem loads_libraryOf {m : Fields} (hne : bytesOf (.obj m) ≠ bytesOf (.obj emptyPolicy)) :
    (libraryOf m).loads (bytesOf (.obj m)) = .ok (.obj m) := by
  simp only [libraryOf, if_neg hne, if_true]

theorem loads_releaseManifest : (libraryOf releaseManifest).loads (bytesOf (.obj releaseManifest)) =
    .ok (.obj releaseManifest) := by
  apply loads_libraryOf
  unfold releaseManifest
  exact bytesOf_ne (by decide)

theorem releaseTarfile_reads :
    Archive.ReadsCanonical releaseCrc32 fun bytes ↦ (releaseTarfile bytes).toOption := by
  intro members time tar out hserialize hgzip hmembers
  have hread : (Archive.readArchive releaseCrc32 out).map (List.map TarInfo.ofEntry) =
      some (members.map (TarInfo.ofMember time)) :=
    Archive.readsCanonical_readArchive releaseCrc32 members time tar out hserialize hgzip hmembers
  rw [← hread]
  change (match Archive.readArchive releaseCrc32 out with
    | some entries => Except.ok (entries.map TarInfo.ofEntry)
    | none => Except.error (lit "unexpected end of data")).toOption = _
  cases Archive.readArchive releaseCrc32 out <;> rfl

theorem releaseTree_accepted : Archive.Accepted releaseTree {lit "ci", lit "scripts"} := by
  have hentries : ∀ e ∈ releaseTree.entries, e.mode = .regular ∧
      Archive.forbidden e.path = false ∧ ¬ Archive.UnsafePath e.path ∧
      (Archive.canonicalUtf8 (Archive.entryMember e).path .archivePath).isOk = true := by
    decide +kernel
  have hdirs : ∀ d ∈ ({lit "ci", lit "scripts"} : Finset Str),
      (Archive.canonicalUtf8 (Archive.directoryMember d).path .archivePath).isOk = true := by
    decide +kernel
  refine ⟨by decide +kernel, by decide +kernel, ?_, ?_, ?_⟩
  · intro e he
    obtain ⟨hmode, hallowed, hsafe, -⟩ := hentries e he
    exact ⟨hallowed, hsafe, Or.inl hmode⟩
  · intro d hd
    exact Archive.named_of_isOk (hdirs d hd)
  · intro e he
    exact Archive.named_of_isOk (hentries e he).2.2.2

theorem sortOn_releaseTree : KeySort.sortOn sortKey (contents Archive.sortedOrder releaseTree
    {lit "ci", lit "scripts"}) = releaseMembers := by
  have hlist : (Archive.sortedOrder.list {lit "ci", lit "scripts"}).Perm
      [lit "ci", lit "scripts"] := by
    rw [List.perm_ext_iff_of_nodup (Archive.sortedOrder.nodup _) (by decide +kernel)]
    intro d
    simp [Archive.sortedOrder.mem_iff]
  have hperm : (contents Archive.sortedOrder releaseTree {lit "ci", lit "scripts"}).Perm
      releaseMembers := by
    refine ((hlist.map Archive.directoryMember).append_right _).trans ?_
    unfold releaseMembers
    exact List.Perm.cons _ (List.Perm.swap _ _ _)
  have hsorted : KeySort.sortOn sortKey releaseMembers = releaseMembers := by
    apply List.mergeSort_of_pairwise
    decide +kernel
  rw [← hsorted]
  apply KeySort.sortOn_eq_of_perm hperm
  intro a ha b hb
  have hinj : ∀ a ∈ releaseMembers, ∀ b ∈ releaseMembers, sortKey a = sortKey b → a = b := by
    decide +kernel
  exact hinj a (hperm.mem_iff.mp ha) b (hperm.mem_iff.mp hb)

theorem not_archive_sample :
    Archive.readArchive releaseCrc32 (bytesOf (.obj emptyPolicy)) = none ∧
      Archive.readArchive releaseCrc32 [] = none := by
  decide +kernel

theorem releaseTree_packs : ∃ tarball, Archive.archiveBytes releaseCrc32 Archive.sortedOrder
    releaseTree = some (.ok tarball) ∧
    releaseSha256 tarball = sourceHash ∧
    releaseTarfile tarball = .ok (releaseMembers.map (TarInfo.ofMember 5)) := by
  obtain ⟨tarball, hbuild⟩ := Archive.exists_archiveBytes releaseCrc32 releaseTree_accepted
    sortOn_releaseTree (by decide +kernel)
  obtain ⟨dirs, haccepted, hread⟩ := Archive.readArchive_eq hbuild
  obtain rfl : {lit "ci", lit "scripts"} = dirs :=
    Option.some.inj (releaseTree_accepted.dirs_eq.symm.trans haccepted.dirs_eq)
  rw [sortOn_releaseTree] at hread
  have hne : ∀ bytes, Archive.readArchive releaseCrc32 bytes = none → tarball ≠ bytes := by
    intro bytes hnone heq
    rw [heq, hnone] at hread
    cases hread
  refine ⟨tarball, hbuild, ?_, ?_⟩
  · change (if tarball = bytesOf (.obj emptyPolicy) then policyHash
      else if tarball = [] then emptyHash else sourceHash) = sourceHash
    rw [if_neg (hne _ not_archive_sample.1), if_neg (hne _ not_archive_sample.2)]
  · change (match Archive.readArchive releaseCrc32 tarball with
      | some entries => Except.ok (entries.map TarInfo.ofEntry)
      | none => Except.error (lit "unexpected end of data")) = _
    rw [hread]
    generalize releaseMembers = members
    change Except.ok ((members.map (Archive.entryOf 5)).map TarInfo.ofEntry) = _
    rw [List.map_map]
    rfl

theorem releaseManifest_errors {tarball : List UInt8} {inv : Invocation}
    (hgateRun : inv.gateRun = none) (hv2 : inv.requireV2 = false)
    (hsha : releaseSha256 tarball = sourceHash)
    (htar : releaseTarfile tarball = .ok (releaseMembers.map (TarInfo.ofMember 5))) :
    manifestErrors scalarText (libraryOf releaseManifest) inv releaseManifest tarball = .ok [] := by
  have hcontract : gateContractErrors scalarText releaseManifest = .ok [] := by decide +kernel
  have harchive : sourceArchiveErrors scalarText (libraryOf releaseManifest) releaseManifest tarball = .ok [] := by
    have htruthy : ¬ truthy (releaseManifest.get (lit "source_archive")) = true := by decide +kernel
    rw [sourceArchiveErrors, if_neg htruthy]
    rfl
  have hrecords : recordErrors scalarText releaseManifest = .ok [] := by decide +kernel
  have hpolicy : sourcePolicyErrors scalarText (libraryOf releaseManifest) releaseManifest tarball = [] := by
    have hprofile : (releaseManifest.get (lit "release_profile")).eq (.str v4Profile) = true := by
      decide +kernel
    rw [sourcePolicyErrors, if_pos hprofile, libraryOf_tarfile, htar]
    decide +kernel
  have htarball : releaseManifest.get (lit "tarball_sha256") =
      .str ((libraryOf releaseManifest).sha256 tarball) := by
    rw [libraryOf_sha256, hsha, ← Json.eq_str]
    decide +kernel
  apply (manifestErrors_eq_nil_iff hv2 hcontract (Json.eq_str.mp (by decide +kernel)) hpolicy
    htarball harchive hrecords (isBool_iff.mp (by decide +kernel))).mpr
  rw [hgateRun]
  rfl

def releaseInvocation (tarball : List UInt8) : Invocation where
  manifest := some (bytesOf (.obj releaseManifest))
  tarball := some tarball
  requireCurrent := true

theorem main_binds_commit_release :
    ∃ (tarball : List UInt8) (gatePolicy : Fields) (e : TrackedEntry),
      main scalarText (libraryOf releaseManifest) (releaseInvocation tarball) = .ok 0 ∧
      releaseManifest.get (lit "gate_policy") = .obj gatePolicy ∧
      TrackedAt releaseTree policyPath e ∧
      gatePolicy.get rfc104PolicyHashKey = .str ((libraryOf releaseManifest).sha256 e.blob) := by
  obtain ⟨tarball, hbuild, hsha, htar⟩ := releaseTree_packs
  have hmain : main scalarText (libraryOf releaseManifest) (releaseInvocation tarball) = .ok 0 := by
    apply main_ok_zero_iff.mpr
    exact ⟨_, tarball, releaseManifest, rfl, rfl, loads_releaseManifest,
      releaseManifest_errors rfl rfl hsha htar⟩
  have htarball : (releaseInvocation tarball).tarball = some tarball := rfl
  have hcurrent : (releaseInvocation tarball).requireCurrent = true := rfl
  obtain ⟨manifest, m, gatePolicy, supplyChain, gates, hmanifest, hloads, -, -, hgatePolicy, -,
    hfiles, -⟩ := main_binds_commit releaseTarfile_reads hbuild htarball hcurrent hmain
  obtain rfl := Option.some.inj hmanifest
  obtain rfl : releaseManifest = m :=
    Json.obj.inj (Except.ok.inj (loads_releaseManifest.symm.trans hloads))
  obtain ⟨e, he, -, hhash⟩ := hfiles (policyPath, rfc104PolicyHashKey) (.head _)
  exact ⟨tarball, gatePolicy, e, hmain, hgatePolicy, he, hhash⟩

/-- Unless their digests collide, one manifest is accepted with the archives of
one commit only. -/
theorem main_determines_commit {inv' : Invocation} {order order' : SetOrder} {t t' : Tree}
    {tarball tarball' : List UInt8} (hdigest : L.sha256 tarball = L.sha256 tarball' →
      tarball = tarball')
    (hbuild : Archive.archiveBytes crc32 order t = some (.ok tarball))
    (hbuild' : Archive.archiveBytes crc32 order' t' = some (.ok tarball'))
    (htarball : inv.tarball = some tarball) (htarball' : inv'.tarball = some tarball')
    (hmanifest : inv.manifest = inv'.manifest) (h : main T L inv = .ok 0)
    (h' : main T L inv' = .ok 0) :
    t.entries.Perm t'.entries ∧ (t.entries ≠ [] → t.timestamp = t'.timestamp) := by
  obtain ⟨manifest, bytes, m, hread, hbytes, hloads, herrors⟩ := main_ok_zero_iff.mp h
  obtain ⟨manifest', bytes', m', hread', hbytes', hloads', herrors'⟩ := main_ok_zero_iff.mp h'
  obtain rfl : tarball = bytes := Option.some.inj (htarball.symm.trans hbytes)
  obtain rfl : tarball' = bytes' := Option.some.inj (htarball'.symm.trans hbytes')
  obtain rfl : manifest = manifest' :=
    Option.some.inj (hread.symm.trans (hmanifest.trans hread'))
  obtain rfl : m = m' := Json.obj.inj (Except.ok.inj (hloads.symm.trans hloads'))
  have hhash := (manifestErrors_nil herrors).tarball
  rw [(manifestErrors_nil herrors').tarball] at hhash
  obtain rfl : tarball = tarball' := hdigest (Json.str.inj hhash).symm
  exact Archive.commit_of_archiveBytes hbuild hbuild'

/-! A manifest without a versioned profile, and two archives of the same files. -/

/-- A digest that keeps every byte. -/
def bytewise (bytes : List UInt8) : Str :=
  bytes.map fun b ↦ ⟨b.toNat, by have := b.toNat_lt; omega⟩

theorem bytewise_injective : Function.Injective bytewise := by
  apply List.map_injective_iff.mpr
  intro b b' heq
  exact UInt8.toNat_inj.mp (congrArg CodePoint.val heq)

def legacyManifest (hash : Str) : Fields :=
  [(lit "release_profile", text "full"), (lit "tarball_sha256", .str hash),
   (lit "gates", .arr [.obj [(lit "status", text "pass")]])]

def legacyLibrary (hash : Str) : Library where
  sha256 := bytewise
  loads bytes :=
    if bytes = bytesOf (.obj (legacyManifest hash)) then .ok (.obj (legacyManifest hash))
    else .error (lit "invalid JSON")
  tarfile _ := .error (lit "unexpected end of data")

def legacyInvocation (hash : Str) (tarball : List UInt8) : Invocation where
  manifest := some (bytesOf (.obj (legacyManifest hash)))
  tarball := some tarball

theorem legacyManifest_accepted (tarball : List UInt8) :
    main scalarText (legacyLibrary (bytewise tarball))
      (legacyInvocation (bytewise tarball) tarball) = .ok 0 := by
  have hloads : (legacyLibrary (bytewise tarball)).loads
      (bytesOf (.obj (legacyManifest (bytewise tarball)))) =
      .ok (.obj (legacyManifest (bytewise tarball))) := if_pos rfl
  apply main_ok_zero_iff.mpr
  refine ⟨_, tarball, _, rfl, rfl, hloads, ?_⟩
  generalize hhash : bytewise tarball = hash
  have hcontract : gateContractErrors scalarText (legacyManifest hash) = .ok [] := rfl
  have harchive : sourceArchiveErrors scalarText (legacyLibrary hash) (legacyManifest hash)
      tarball = .ok [] := rfl
  have hrecords : recordErrors scalarText (legacyManifest hash) = .ok [] := rfl
  have hpolicy : sourcePolicyErrors scalarText (legacyLibrary hash) (legacyManifest hash)
      tarball = [] := rfl
  have htarball : ((legacyManifest hash).get (lit "tarball_sha256")).eq
      (.str ((legacyLibrary hash).sha256 tarball)) = true := Json.eq_str.mpr (hhash ▸ rfl)
  rw [manifestErrors, hcontract, harchive, hrecords, hpolicy, htarball]
  rfl

theorem main_determines_commit_later :
    ∃ tarball later, Archive.archiveBytes (fun _ ↦ 0) Archive.sortedOrder (Archive.sampleTree 5) =
        some (.ok tarball) ∧
      Archive.archiveBytes (fun _ ↦ 0) Archive.sortedOrder (Archive.sampleTree 6) =
        some (.ok later) ∧
      main scalarText (legacyLibrary (bytewise tarball))
        (legacyInvocation (bytewise tarball) tarball) = .ok 0 ∧
      main scalarText (legacyLibrary (bytewise tarball))
        (legacyInvocation (bytewise tarball) later) ≠ .ok 0 := by
  obtain ⟨tarball, hbuild⟩ := Archive.sampleTree_packs (fun _ ↦ 0) Archive.sortedOrder 5
    (by decide +kernel)
  obtain ⟨later, hlater⟩ := Archive.sampleTree_packs (fun _ ↦ 0) Archive.sortedOrder 6
    (by decide +kernel)
  refine ⟨tarball, later, hbuild, hlater, legacyManifest_accepted tarball, fun haccepted ↦ ?_⟩
  have htarball : (legacyInvocation (bytewise tarball) tarball).tarball = some tarball := rfl
  have htarball' : (legacyInvocation (bytewise tarball) later).tarball = some later := rfl
  have hdigest : (legacyLibrary (bytewise tarball)).sha256 tarball =
      (legacyLibrary (bytewise tarball)).sha256 later → tarball = later :=
    fun heq ↦ bytewise_injective heq
  obtain ⟨-, htime⟩ := main_determines_commit hdigest hbuild hlater htarball htarball' rfl
    (legacyManifest_accepted tarball) haccepted
  exact absurd (htime (List.cons_ne_nil _ _)) (by decide)

end Commit

end Henret.Release.Verify
