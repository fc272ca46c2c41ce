import Henret.Release.Accepted

/-!
# Publishing a release

The archive of a commit, the manifest that the generator prints and the gate
summary that it writes are accepted together, and a summary with another digest
is not.
-/

namespace Henret.Release.Assemble

open Outcome PyJson PyStr Verify

/-! ## The archive of the commit beside the manifest -/

section Release

variable {T : PyText} {L : Library} {P : Process} {version tarball path : Str}
  {records : List Json} {gates : List Fields} {policy m : Fields} {out : Artifacts}
  {crc32 : List UInt8 → ℕ}
  {order : Archive.SetOrder} {t : Archive.Tree}

theorem recordErrors_written (hm : Written L P v4Profile tarball gates policy m)
    (hadmitted : Admitted T v4Profile ⟨v4Registry, v4Gates⟩ gates) :
    recordErrors T m = .ok [] := by
  have hne : gates ≠ [] := by
    rintro rfl
    obtain ⟨ns, hns, hexact⟩ := hadmitted.ids
    have hzero : (0 : ℤ) ∈ ns := (hexact 0).mpr (.head _)
    rw [List.map_nil, eq_comm, List.map_eq_nil_iff] at hns
    rw [hns] at hzero
    cases hzero
  have htruthy : truthy (.arr (gates.map .obj)) = true := by
    obtain ⟨gate, rest, rfl⟩ := List.exists_cons_of_ne_nil hne
    rfl
  have hpass : (requiredGates gates).flatMap (fun g ↦
      report (!(g.get (lit "status")).eq (.str (lit "pass")))
        (lit "required gate " ++ T.str (g.get (lit "id")) ++ lit " (" ++
          T.str (g.get (lit "name")) ++ lit ") status=" ++ T.repr (g.get (lit "status")))) = [] := by
    rw [List.flatMap_eq_nil_iff]
    intro gate hgate
    rw [report_eq_nil_iff, Bool.not_eq_false', Json.eq_str]
    exact hadmitted.status gate (List.mem_of_mem_filter hgate)
  simp only [recordErrors, hm.gates, htruthy]
  refine bind_ok_iff.mpr ⟨_, rfl, bind_ok_iff.mpr ⟨gates, Json.mapM_asDict_ok_iff.mpr rfl, ?_⟩⟩
  rw [hpass]
  rfl

theorem sourceArchiveErrors_written (hm : Written L P v4Profile tarball gates policy m)
    {bytes : List UInt8} (hfile : P.file tarball = some bytes) :
    sourceArchiveErrors T L m bytes = .ok [] := by
  obtain ⟨block, hblock, htruthy, hsha, hsize⟩ : ∃ block : Fields,
      sourceArchive L P tarball = .obj block ∧ truthy (.obj block) = true ∧
      block.get (lit "sha256") = .str (L.sha256 bytes) ∧
      block.get (lit "size_bytes") = .int bytes.length := by
    have hnodup : [lit "name", lit "sha256", lit "size_bytes"].Nodup := by simp [lit]
    have hget : ∀ (sha size x : Json) (key : Str) (i : ℕ),
        [(lit "name", .str (pathName tarball)), (lit "sha256", sha), (lit "size_bytes", size)][i]? =
          some (key, x) →
        Fields.get [(lit "name", .str (pathName tarball)), (lit "sha256", sha),
          (lit "size_bytes", size)] key = x := by
      intro sha size x key i hi
      rw [Fields.get, Fields.getD, Fields.lookup_of_mem (List.mem_of_getElem? hi) hnodup]
      rfl
    refine ⟨_, rfl, rfl, ?_, ?_⟩
    · rw [hget _ _ _ _ 1 rfl, sha256File, hfile]
    · rw [hget _ _ _ _ 2 rfl, hfile]
  rw [sourceArchiveErrors, hm.archive, hblock, if_pos htruthy]
  refine bind_ok_iff.mpr ⟨block, rfl, ?_⟩
  simp only [hsha, hsize]
  rw [Json.eq_str.mpr rfl, Json.same_int.mpr rfl, Bool.or_true]
  rfl

section Archived

variable {infos : List Archive.TarInfo}

theorem gatePolicyErrors_written (hm : Written L P v4Profile tarball gates policy m)
    (hdigest : ∀ file ∈ rfc104ArchiveFiles,
      sha256File L P file.1 = .str (L.sha256 (archivedBytes infos file.1))) :
    gatePolicyErrors L m infos = [] := by
  simp only [gatePolicyErrors, hm.gatePolicy]
  rw [List.flatMap_eq_nil_iff]
  intro file hfile
  rw [report_eq_nil_iff, Bool.not_eq_false', Json.eq_str, Fields.get,
    gatePolicy_getD L P file .null hfile, hdigest file hfile]

theorem policyBytesErrors_written (hm : Written L P v4Profile tarball gates policy m)
    (hdigest : ∀ file ∈ rfc104ArchiveFiles,
      sha256File L P file.1 = .str (L.sha256 (archivedBytes infos file.1)))
    (hloads : L.loads (archivedBytes infos policyPath) = .ok (.obj policy))
    (hunique : (Json.obj policy).unique = true) (hown : lit "policy_sha256" ∉ policy.keys) :
    policyBytesErrors L m infos = [] := by
  have hembedded : Fields.get ((lit "policy_sha256", sha256File L P policyPath) :: policy)
      (lit "policy_sha256") = sha256File L P policyPath := by
    rw [Fields.get, Fields.getD, List.lookup_cons_self]
    rfl
  have hfilter : ((lit "policy_sha256", sha256File L P policyPath) :: policy).filter
      (fun entry ↦ decide (entry.1 ≠ lit "policy_sha256")) = policy := by
    rw [List.filter_cons_of_neg (by simp), filter_of_unowned hown]
  have hsame : (Json.obj policy).eq (.obj policy) = true := by
    rw [Json.eq, Json.same_self _ hunique]
    rfl
  simp only [policyBytesErrors, hloads, hm.supplyChain, hfilter, hembedded, hsame,
    supplyBlock_of_unowned _ (Json.keys_nodup hunique) hown, gatePolicyErrors_written hm hdigest]
  rw [hdigest (policyPath, rfc104PolicyHashKey) (.head _), Json.eq_str.mpr rfl]
  rfl

theorem sourcePolicyErrors_written (hm : Written L P v4Profile tarball gates policy m)
    {bytes : List UInt8} (hinfos : L.tarfile bytes = .ok infos)
    (hfiles : ∀ file ∈ rfc104ArchiveFiles, ∃ info, membersAt infos file.1 = [info] ∧
      P.file file.1 = some info.data)
    (hpolicy : readPolicy L P = .ok policy) (hown : lit "policy_sha256" ∉ policy.keys)
    (hdoc : Documented T L P) : sourcePolicyErrors T L m bytes = [] := by
  have hdigest : ∀ file ∈ rfc104ArchiveFiles,
      sha256File L P file.1 = .str (L.sha256 (archivedBytes infos file.1)) := by
    intro file hfile
    obtain ⟨info, hinfo, hdata⟩ := hfiles file hfile
    rw [sha256File, hdata, archivedBytes_eq hinfo]
  have harchived : L.loads (archivedBytes infos policyPath) = .ok (.obj policy) := by
    obtain ⟨bytes', hbytes', hloads⟩ := readPolicy_ok hpolicy
    obtain ⟨info, hinfo, hdata⟩ := hfiles (policyPath, rfc104PolicyHashKey) (.head _)
    rw [hbytes'] at hdata
    rw [archivedBytes_eq hinfo, ← Option.some.inj hdata, hloads]
  have hmembers : rfc104ArchiveFiles.flatMap (fun file ↦ memberErrors T infos file.1) = [] := by
    rw [List.flatMap_eq_nil_iff]
    intro file hfile
    obtain ⟨info, hinfo, -⟩ := hfiles file hfile
    rw [memberErrors, report_eq_nil_iff, hinfo]
    rfl
  rw [sourcePolicyErrors, hm.released, if_pos (Json.eq_str.mpr rfl)]
  simp only [hinfos, hmembers]
  exact policyBytesErrors_written hm hdigest harchived (hdoc.unique policy hpolicy) hown

end Archived

/-- A published manifest, its archive and the gate summary at a path, checked for the
current profile. -/
def publication (manifest bytes : List UInt8) (path : Str) (gateRun : Option (List UInt8)) :
    Verify.Invocation where
  manifest := some manifest
  tarball := some bytes
  gateRun := gateRun.map fun summary ↦ (path, some summary)
  requireCurrent := true

/-- A summary is compared with the digest that the manifest records. -/
theorem gateRunErrors_eq_nil_iff {path path' : Str} {summary summary' : List UInt8}
    (hnamed : m.get (lit "human_summary") = humanSummary L path summary) :
    gateRunErrors L m (some (path', some summary')) = .ok [] ↔
      L.sha256 summary = L.sha256 summary' := by
  obtain ⟨entry, hentry, htruthy, hsha⟩ : ∃ entry : Fields,
      humanSummary L path summary = .obj entry ∧ truthy (.obj entry) = true ∧
      entry.get (lit "sha256") = .str (L.sha256 summary) := by
    refine ⟨_, rfl, rfl, ?_⟩
    rw [Fields.get, Fields.getD, List.lookup_cons, beq_false_of_ne (by decide),
      List.lookup_cons_self]
    rfl
  simp only [gateRunErrors, hnamed, hentry, htruthy, if_true, Json.asDict, bind_of_ok rfl,
    pure_ok_iff, report_eq_nil_iff, hsha, Bool.not_eq_false', Json.eq_str, Json.str.injEq]

/-- What the checkout holds of the tracked files is what the archive of the commit holds. -/
theorem archived_of_tracked
    (hread : Archive.ReadsCanonical crc32 fun bytes ↦ (L.tarfile bytes).toOption)
    {bytes : List UInt8} (hbuild : Archive.archiveBytes crc32 order t = some (.ok bytes))
    (htracked : ∀ file ∈ rfc104ArchiveFiles, ∃ e, TrackedAt t file.1 e ∧
      (∀ e', TrackedAt t file.1 e' → e' = e) ∧ P.file file.1 = some e.blob) :
    ∃ infos, L.tarfile bytes = .ok infos ∧ ∀ file ∈ rfc104ArchiveFiles,
      ∃ info, membersAt infos file.1 = [info] ∧ P.file file.1 = some info.data := by
  obtain ⟨dirs, -, heq⟩ := Archive.tarfile_archiveBytes hread hbuild
  cases htarfile : L.tarfile bytes with
  | error e =>
      rw [htarfile] at heq
      cases heq
  | ok infos =>
      rw [htarfile] at heq
      obtain rfl := Option.some.inj heq
      refine ⟨_, rfl, fun file hfile ↦ ?_⟩
      obtain ⟨e, he, honly, hblob⟩ := htracked file hfile
      refine ⟨_, membersAt_of_trackedAt he honly, ?_⟩
      rw [hblob, (ofMember_entryMember t.timestamp he.file).2.2]

/-- Which summaries are accepted with the manifest of a clean hosted run and the archive of
the commit, when the checkout holds the tracked policy and checkers. -/
theorem assemble_verifies (hdoc : Documented T L P)
    (hread : Archive.ReadsCanonical crc32 fun bytes ↦ (L.tarfile bytes).toOption)
    {bytes manifest : List UInt8} {commit : Str} (hprofile : releaseProfile P = v4Profile)
    (hassemble : assemble L P T records version tarball path = .ok out)
    (hrun : Publishable T L P records commit)
    (hown : ∀ policy, readPolicy L P = .ok policy → lit "policy_sha256" ∉ policy.keys)
    (hbuild : Archive.archiveBytes crc32 order t = some (.ok bytes))
    (hfile : P.file tarball = some bytes)
    (htracked : ∀ file ∈ rfc104ArchiveFiles, ∃ e, TrackedAt t file.1 e ∧
      (∀ e', TrackedAt t file.1 e' → e' = e) ∧ P.file file.1 = some e.blob)
    (hmanifest : L.loads manifest = .ok (.obj out.manifest)) :
    Verify.main T L (publication manifest bytes path out.gateRun) = .ok 0 ∧
      ∀ summary, out.gateRun = some summary → ∀ path' summary',
        Verify.main T L (publication manifest bytes path' (some summary')) = .ok 0 ↔
          L.sha256 summary = L.sha256 summary' := by
  obtain ⟨gates, policy, hgates, hpolicy, hm, hnamed⟩ := assemble_ok hassemble
  have hcurrent : (releaseProfile P, ⟨v4Registry, v4Gates⟩) ∈ profiles := by
    rw [hprofile]
    exact v4Contract_mem
  have hcontract : gateContractErrors T out.manifest = .ok [] :=
    (contractErrors_eq_nil_iff hm hcurrent hgates hpolicy hdoc).mpr ⟨commit, hrun⟩
  rw [hprofile] at hgates hm
  have hadmitted : Admitted T v4Profile ⟨v4Registry, v4Gates⟩ gates :=
    (assembleGates_ok v4Contract_mem hgates).1
  obtain ⟨infos, hinfos, hfiles⟩ := archived_of_tracked hread hbuild htracked
  have hsha : out.manifest.get (lit "tarball_sha256") = .str (L.sha256 bytes) := by
    rw [hm.digest, sha256File, hfile]
  have hpassed : out.manifest.get (lit "required_gates_passed") = .bool true := by
    rw [hm.passed, hadmitted.requiredGatesPassed]
  have hpolicyErrors : sourcePolicyErrors T L out.manifest bytes = [] :=
    sourcePolicyErrors_written hm hinfos hfiles hpolicy (hown policy hpolicy) hdoc
  have hverdict : ∀ inv : Verify.Invocation, inv.manifest = some manifest →
      inv.tarball = some bytes → inv.requireV2 = false →
      (Verify.main T L inv = .ok 0 ↔ gateRunErrors L out.manifest inv.gateRun = .ok []) := by
    intro inv hread hbytes hv2
    rw [← manifestErrors_eq_nil_iff hv2 hcontract hm.released hpolicyErrors hsha
      (sourceArchiveErrors_written hm hfile) (recordErrors_written hm hadmitted) hpassed]
    exact main_ok_zero_iff_of_loads hread hbytes hmanifest
  refine ⟨(hverdict _ rfl rfl rfl).mpr ?_, ?_⟩
  · cases hsummary : out.gateRun with
    | none => rfl
    | some summary => exact (gateRunErrors_eq_nil_iff (hnamed summary hsummary)).mpr rfl
  · intro summary hsummary path' summary'
    exact (hverdict _ rfl rfl rfl).trans (gateRunErrors_eq_nil_iff (hnamed summary hsummary))

theorem releaseTree_tracked : ∀ file ∈ rfc104ArchiveFiles, ∃ e ∈ releaseTree.entries,
    e.mode ≠ .symlink ∧ Named file.1 e.path ∧
    (∀ e' ∈ releaseTree.entries, Named file.1 e'.path → e' = e) ∧
    file.1 ≠ hostedTarball ∧ hostedFiles.lookup file.1 = some e.blob := by
  decide +kernel

theorem assemble_verifies_hosted : ∃ (tarball summary : List UInt8) (m : Fields),
    Archive.archiveBytes releaseCrc32 Archive.sortedOrder releaseTree = some (.ok tarball) ∧
    assemble (libraryOf m) (hostedProcess tarball) scalarText hostedRecords (lit "0.9.0")
      hostedTarball hostedSummary = .ok ⟨m, some summary⟩ ∧
    Verify.main scalarText (libraryOf m)
      (publication (bytesOf (.obj m)) tarball hostedSummary (some summary)) = .ok 0 ∧
    ¬ Verify.main scalarText (libraryOf m)
      (publication (bytesOf (.obj m)) tarball hostedSummary (some [])) = .ok 0 := by
  obtain ⟨tarball, hbuild, -, -⟩ := releaseTree_packs
  obtain ⟨gates, summary, hsummary, hassemble⟩ := assemble_hosted tarball
  generalize hname : humanSummary (libraryOf []) hostedSummary summary = name at hassemble
  have hmanifest : bytesOf (.obj (Fields.set (hostedManifest tarball gates) (lit "human_summary")
      name)) ≠ bytesOf (.obj emptyPolicy) := by
    have hset : Fields.set (hostedManifest tarball gates) (lit "human_summary") name =
        hostedManifest tarball gates ++ [(lit "human_summary", name)] :=
      Fields.set_of_notMem _ (show lit "human_summary" ∉ manifestKeys.1 by decide +kernel)
    rw [hset]
    unfold hostedManifest manifest
    exact bytesOf_ne (by decide)
  generalize hm : Fields.set (hostedManifest tarball gates) (lit "human_summary") name = m
    at hassemble hmanifest
  have hown : ∀ policy, readPolicy (libraryOf m) (hostedProcess tarball) = .ok policy →
      lit "policy_sha256" ∉ policy.keys := by
    intro policy hpolicy
    cases (readPolicy_hosted _ tarball).symm.trans hpolicy
    exact hosted_files.2.2.2.2.2.1
  have htracked : ∀ file ∈ rfc104ArchiveFiles, ∃ e, TrackedAt releaseTree file.1 e ∧
      (∀ e', TrackedAt releaseTree file.1 e' → e' = e) ∧
      (hostedProcess tarball).file file.1 = some e.blob := by
    intro file hfile
    obtain ⟨e, he, hmode, hnamed, honly, hne, hblob⟩ := releaseTree_tracked file hfile
    refine ⟨e, ⟨he, hmode, hnamed⟩, fun e' he' ↦ honly e' he'.mem he'.named, ?_⟩
    exact (if_neg hne).trans hblob
  have htarball : (hostedProcess tarball).file hostedTarball = some tarball := by
    simp [hostedProcess]
  obtain ⟨haccepted, honly⟩ := assemble_verifies (hosted_documented m tarball)
    releaseTarfile_reads (hosted_profile tarball) (hassemble m) (hosted_publishable m tarball) hown
    hbuild htarball htracked (loads_libraryOf hmanifest)
  refine ⟨tarball, summary, m, hbuild, hassemble m, haccepted, ?_⟩
  have hhashes : releaseSha256 [] = emptyHash ∧ policyHash ≠ emptyHash ∧ sourceHash ≠ emptyHash := by
    decide +kernel
  rw [honly summary rfl, libraryOf_sha256, hhashes.1, releaseSha256, if_neg hsummary]
  split
  · exact hhashes.2.1
  · exact hhashes.2.2

end Release

end Henret.Release.Assemble
