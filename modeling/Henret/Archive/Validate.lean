import Henret.Archive.Source

/-!
# Validating an archive against its commit

The validator walks over the members that a tar reader reports and compares
them with what the commit tracks.  It accepts exactly the archives that hold, in
order, the members of the canonical one; so a build passes its own checks.
-/

namespace Henret.Archive

open KeySort Outcome PyStr PosixPath

/-- `name.rstrip("/")`. -/
def rstrip (name : List CodePoint) : List CodePoint :=
  name.rdropWhile fun c ↦ c = sep

/-- What the tar reader reports of a member.  A time that is not finite has no
rational value. -/
structure TarInfo where
  name : List CodePoint
  type : List UInt8
  mode : ℤ
  uid : ℤ
  gid : ℤ
  uname : List CodePoint
  gname : List CodePoint
  mtime : Option ℚ
  paxHeaders : List (List CodePoint × List CodePoint)
  linkname : List CodePoint
  data : List UInt8
deriving DecidableEq

namespace TarInfo

def IsDir (info : TarInfo) : Prop := info.type = [53]

def IsSym (info : TarInfo) : Prop := info.type = [50]

/-- `REGULAR_TYPES`. -/
def IsFile (info : TarInfo) : Prop := info.type ∈ ([[48], [0], [55], [83]] : List (List UInt8))

instance (info : TarInfo) : Decidable info.IsDir := inferInstanceAs (Decidable (_ = _))

instance (info : TarInfo) : Decidable info.IsSym := inferInstanceAs (Decidable (_ = _))

instance (info : TarInfo) : Decidable info.IsFile := inferInstanceAs (Decidable (_ ∈ _))

def stripped (info : TarInfo) : List CodePoint :=
  rstrip info.name

def orderName (info : TarInfo) : List CodePoint :=
  if info.IsDir then info.stripped ++ [sep] else info.stripped

/-- A link target without an encoding is compared as if it were empty. -/
def observedLink (info : TarInfo) : List UInt8 :=
  (encodeUtf8 info.linkname).getD []

end TarInfo

inductive ValidateError where
  | gitlink (path : List CodePoint)
  | unsafePath (rawName : List CodePoint)
  | forbiddenPath (name : List CodePoint)
  | duplicate (name : List CodePoint)
  | ownership (name : List CodePoint)
  | mtime (name : List CodePoint)
  | paxHeaders (name : List CodePoint)
  | unexpectedDirectory (name : List CodePoint)
  | directoryMode (name : List CodePoint) (mode : ℤ)
  | notTracked (name : List CodePoint)
  | memberType (mode : GitMode) (name : List CodePoint)
  | fileMode (mode : GitMode) (name : List CodePoint) (observed expected : ℤ)
  | symlinkTarget (name : List CodePoint)
  | fileBytes (name : List CodePoint)
  | unsupportedType (type : List UInt8) (name : List CodePoint)
  | unreadable
  | order
  | missing (paths : List (List CodePoint))
  | extra (paths : List (List CodePoint))
  | missingDirs (paths : List (List CodePoint))
  | extraDirs (paths : List (List CodePoint))
  | policy (path : List CodePoint)
deriving DecidableEq

/-- What ends the validator before it has a verdict. -/
inductive CheckFailure where
  | value (e : TarError)
  | noBlob (path : List CodePoint)
deriving DecidableEq

/-- `if c: errors.append(e)`. -/
def errorIf {ε : Type} (c : Prop) [Decidable c] (e : ε) : List ε :=
  if c then [e] else []

theorem errorIf_eq_nil_iff {ε : Type} {c : Prop} [Decidable c] {e : ε} :
    errorIf c e = [] ↔ ¬ c := by
  by_cases h : c <;> simp [errorIf, h]

/-- The object of a gitlink is a commit of another repository. -/
def gitBlob (e : TrackedEntry) : Except CheckFailure (List UInt8) := do
  raiseIf (e.mode = .gitlink) (.noBlob e.path)
  return e.blob

def expectedMode (mode : GitMode) : ℤ :=
  match mode with
  | .symlink => 0o777
  | .executable => 0o755
  | _ => 0o644

/-- The checks of a file or symbolic link that is tracked with the mode of `e`. -/
def contentErrors (e : TrackedEntry) (info : TarInfo) : Except CheckFailure (List ValidateError) :=
  if info.IsSym ↔ e.mode = .symlink then do
    let expectedData ← gitBlob e
    return errorIf (info.mode % 512 ≠ expectedMode e.mode)
        (.fileMode e.mode info.stripped (info.mode % 512) (expectedMode e.mode)) ++
      if info.IsSym then errorIf (info.observedLink ≠ expectedData) (.symlinkTarget info.stripped)
      else errorIf (info.data ≠ expectedData) (.fileBytes info.stripped)
  else return [.memberType e.mode info.stripped]

/-- The checks that every member undergoes. -/
def commonErrors (t : Tree) (seen : Finset (List CodePoint)) (info : TarInfo) :
    List ValidateError :=
  let name := info.stripped
  errorIf (name = [] ∨ UnsafePath name) (.unsafePath info.name) ++
  errorIf (forbidden name) (.forbiddenPath name) ++
  errorIf (name ∈ seen) (.duplicate name) ++
  errorIf (info.uid ≠ 0 ∨ info.gid ≠ 0 ∨ info.uname ≠ [] ∨ info.gname ≠ []) (.ownership name) ++
  errorIf (info.mtime ≠ some (t.timestamp : ℚ)) (.mtime name) ++
  errorIf (info.paxHeaders ≠ []) (.paxHeaders name)

/-- The body of the loop over the members. -/
def memberErrors (t : Tree) (expectedDirs seen : Finset (List CodePoint)) (info : TarInfo) :
    Except CheckFailure (List ValidateError) :=
  if info.IsDir then
    return commonErrors t seen info ++
      errorIf (info.stripped ∉ expectedDirs) (.unexpectedDirectory info.stripped) ++
      errorIf (info.mode % 512 ≠ 0o755) (.directoryMode info.stripped (info.mode % 512))
  else if info.IsFile ∨ info.IsSym then
    match t.entries.find? fun e ↦ e.path = info.stripped with
    | none => return commonErrors t seen info ++ [.notTracked info.stripped]
    | some e => do
        let errors ← contentErrors e info
        return commonErrors t seen info ++ errors
  else return commonErrors t seen info ++ [.unsupportedType info.type info.stripped]

/-- The sets and the list that the loop over the members fills. -/
structure Scan where
  seen : Finset (List CodePoint) := ∅
  actual : Finset (List CodePoint) := ∅
  actualDirs : Finset (List CodePoint) := ∅
  actualOrder : List (List CodePoint) := []

def Scan.add (scan : Scan) (info : TarInfo) : Scan where
  seen := insert info.stripped scan.seen
  actual :=
    if ¬ info.IsDir ∧ (info.IsFile ∨ info.IsSym) then insert info.stripped scan.actual
    else scan.actual
  actualDirs := if info.IsDir then insert info.stripped scan.actualDirs else scan.actualDirs
  actualOrder := scan.actualOrder ++ [info.orderName]

def scanMembers (t : Tree) (expectedDirs : Finset (List CodePoint)) :
    Scan → List TarInfo → Except CheckFailure (List ValidateError × Scan)
  | scan, [] => return ([], scan)
  | scan, info :: infos => do
      let errors ← memberErrors t expectedDirs scan.seen info
      let (rest, final) ← scanMembers t expectedDirs (scan.add info) infos
      return (errors ++ rest, final)

/-- `sorted(...)` of a set of strings. -/
def sortedSet (order : SetOrder) (s : Finset (List CodePoint)) : List (List CodePoint) :=
  sortedStrings (order.list s)

/-- `if missing: errors.append(... missing[:5])`. -/
def listError (paths : List (List CodePoint)) (e : List (List CodePoint) → ValidateError) :
    List ValidateError :=
  errorIf (paths ≠ []) (e (paths.take 5))

def expectedOrder (order : SetOrder) (t : Tree) (expectedDirs : Finset (List CodePoint)) :
    Except CheckFailure (List (List CodePoint)) :=
  sortByKey (fun name ↦ (canonicalUtf8 name .archivePath).mapError .value)
    (t.entries.map TrackedEntry.path ++ (order.list expectedDirs).map (· ++ [sep]))

/-- `archive` is what the tar reader reports, unless it fails; `none` when the
loop over the directories does not end. -/
def validate (order : SetOrder) (t : Tree) (archive : Option (List TarInfo)) :
    Option (Except CheckFailure (List ValidateError)) :=
  let expected := t.entries.map TrackedEntry.path
  (trackedDirs expected).map fun expectedDirs ↦ do
    let expectedOrder ← expectedOrder order t expectedDirs
    match archive with
    | none => return [.unreadable]
    | some infos => do
        let (errors, final) ← scanMembers t expectedDirs {} infos
        return (gitlinks t).map .gitlink ++ errors ++
          errorIf (final.actualOrder ≠ expectedOrder) .order ++
          listError (sortedSet order (expected.toFinset \ final.actual)) .missing ++
          listError (sortedSet order (final.actual \ expected.toFinset)) .extra ++
          listError (sortedSet order (expectedDirs \ final.actualDirs)) .missingDirs ++
          listError (sortedSet order (final.actualDirs \ expectedDirs)) .extraDirs ++
          ((sortedStrings expected).filter forbidden).map .policy

/-! ## Names of members -/

theorem rstrip_of_getLast? {name : List CodePoint} (h : name.getLast? ≠ some sep) :
    rstrip name = name := by
  rw [rstrip, List.rdropWhile_eq_self_iff]
  intro hne hlast
  apply h
  rw [List.getLast?_eq_some_getLast hne]
  simpa using hlast

theorem rstrip_concat {name : List CodePoint} (h : name.getLast? ≠ some sep) :
    rstrip (name ++ [sep]) = name := by
  rw [rstrip, List.rdropWhile_concat, if_pos (decide_eq_true rfl)]
  exact rstrip_of_getLast? h

theorem TarInfo.getLast?_stripped (info : TarInfo) : info.stripped.getLast? ≠ some sep := by
  intro hlast
  have hne : info.stripped ≠ [] := by
    intro hnil
    rw [hnil] at hlast
    cases hlast
  have hlast' := List.rdropWhile_last_not (fun c ↦ decide (c = sep)) info.name hne
  rw [List.getLast?_eq_some_getLast hne, Option.some.injEq] at hlast
  apply hlast'
  rw [decide_eq_true_eq]
  exact hlast

theorem TarInfo.orderName_eq_concat {info : TarInfo} {d : List CodePoint}
    (h : info.orderName = d ++ [sep]) : info.IsDir ∧ info.stripped = d := by
  unfold TarInfo.orderName at h
  split at h
  · rename_i hdir
    exact ⟨hdir, List.append_cancel_right h⟩
  · apply absurd _ info.getLast?_stripped
    rw [h, List.getLast?_concat]

theorem TarInfo.orderName_eq_file {info : TarInfo} {path : List CodePoint}
    (h : info.orderName = path) (hpath : path.getLast? ≠ some sep) :
    ¬ info.IsDir ∧ info.stripped = path := by
  unfold TarInfo.orderName at h
  split at h
  · apply absurd _ hpath
    rw [← h, List.getLast?_concat]
  · rename_i hdir
    exact ⟨hdir, h⟩

/-- A directory above a path is a text of some of its parts. -/
theorem mem_dirsAbove {name d : List CodePoint} (h : d ∈ dirsAbove name) :
    ∃ ps, PurePosixPath.Parts ps ∧ ps ≠ [] ∧ d = [sep].intercalate ps ∧
      ∀ part ∈ ps, part ∈ (PurePosixPath.ofStr name).parts := by
  obtain ⟨k, hpos, hlt, rfl⟩ := PurePosixPath.mem_ancestors.mp h
  refine ⟨_, (PurePosixPath.parts_ofStr name).take k, ?_, rfl, ?_⟩
  · intro hnil
    have hlength := congrArg List.length hnil
    rw [List.length_take, List.length_nil] at hlength
    omega
  · intro part hpart
    exact List.mem_of_mem_take hpart

theorem ne_nil_of_mem_dirsAbove {name d : List CodePoint} (h : d ∈ dirsAbove name) : d ≠ [] := by
  obtain ⟨ps, hparts, hne, rfl, -⟩ := mem_dirsAbove h
  exact hparts.intercalate_ne_nil hne

/-- The directories above a safe path are safe. -/
theorem UnsafePath.of_mem_dirsAbove {name d : List CodePoint} (hd : d ∈ dirsAbove name)
    (h : UnsafePath d) : UnsafePath name := by
  obtain ⟨ps, hparts, hne, rfl, hsub⟩ := mem_dirsAbove hd
  rw [UnsafePath, PurePosixPath.ofStr_intercalate hparts hne] at h
  rcases h with habsolute | hdots | hdot
  · exact absurd rfl habsolute
  · exact Or.inr (Or.inl (hsub _ hdots))
  · exact absurd hdot (hparts.not_dot_sep hne)

/-! ## What the validator accepts -/

/-- A commit that no archive could make the validator reject. -/
structure Checked (t : Tree) (dirs : Finset (List CodePoint)) : Prop where
  dirs_eq : trackedDirs (t.entries.map TrackedEntry.path) = some dirs
  supported : gitlinks t = []
  dirs_allowed : ∀ d ∈ dirs, forbidden d = false
  files_allowed : ∀ e ∈ t.entries, forbidden e.path = false
  safe : ∀ e ∈ t.entries, ¬ UnsafePath e.path
  apart : ∀ e ∈ t.entries, e.path ∉ dirs
  dirs_named : ∀ d ∈ dirs, Named (directoryMember d)
  files_named : ∀ e ∈ t.entries, Named (entryMember e)

/-- The reader reports the member `m` of an archive written at `time`. -/
structure Reports (time : ℤ) (info : TarInfo) (m : Member) : Prop where
  name : info.orderName = m.path
  type : m.kind = [53] ∧ info.IsDir ∨ m.kind = [50] ∧ info.IsSym ∨ m.kind = [48] ∧ info.IsFile
  mode : info.mode % 512 = m.mode
  owner : info.uid = 0 ∧ info.gid = 0 ∧ info.uname = [] ∧ info.gname = []
  mtime : info.mtime = some (time : ℚ)
  paxHeaders : info.paxHeaders = []
  link : m.kind = [50] → info.observedLink = m.link
  data : m.kind = [48] → info.data = m.data

/-- The content that the validator expects of a file or symbolic link. -/
structure HasContent (e : TrackedEntry) (info : TarInfo) : Prop where
  type : info.IsSym ↔ e.mode = .symlink
  blob : e.mode ≠ .gitlink
  mode : info.mode % 512 = expectedMode e.mode
  link : info.IsSym → info.observedLink = e.blob
  data : ¬ info.IsSym → info.data = e.blob

/-- A member whose name and metadata are accepted when its name is new. -/
structure Plain (t : Tree) (info : TarInfo) : Prop where
  name_ne : info.stripped ≠ []
  safe : ¬ UnsafePath info.stripped
  allowed : forbidden info.stripped = false
  owner : info.uid = 0 ∧ info.gid = 0 ∧ info.uname = [] ∧ info.gname = []
  mtime : info.mtime = some (t.timestamp : ℚ)
  paxHeaders : info.paxHeaders = []

/-- A plain member that is a directory or a tracked file. -/
structure Fits (t : Tree) (dirs : Finset (List CodePoint)) (info : TarInfo) : Prop where
  plain : Plain t info
  content :
    info.IsDir ∧ info.stripped ∈ dirs ∧ info.mode % 512 = 0o755 ∨
      ¬ info.IsDir ∧ (info.IsFile ∨ info.IsSym) ∧
        ∃ e ∈ t.entries, e.path = info.stripped ∧ HasContent e info

theorem commonErrors_eq_nil_iff {t : Tree} {seen : Finset (List CodePoint)} {info : TarInfo} :
    commonErrors t seen info = [] ↔ Plain t info ∧ info.stripped ∉ seen := by
  simp only [commonErrors, List.append_eq_nil_iff, errorIf_eq_nil_iff, not_or, not_not,
    Bool.not_eq_true]
  constructor
  · rintro ⟨⟨⟨⟨⟨⟨hne, hsafe⟩, hallowed⟩, hseen⟩, howner⟩, hmtime⟩, hpax⟩
    exact ⟨⟨hne, hsafe, hallowed, howner, hmtime, hpax⟩, hseen⟩
  · rintro ⟨⟨hne, hsafe, hallowed, howner, hmtime, hpax⟩, hseen⟩
    exact ⟨⟨⟨⟨⟨⟨hne, hsafe⟩, hallowed⟩, hseen⟩, howner⟩, hmtime⟩, hpax⟩

theorem contentErrors_ok_nil_iff {e : TrackedEntry} {info : TarInfo} :
    contentErrors e info = .ok [] ↔ HasContent e info := by
  unfold contentErrors
  constructor
  · intro h
    split at h
    · rename_i htype
      simp only [gitBlob, bind_ok_iff, pure_ok_iff, raiseIf_ok_iff, List.append_eq_nil_iff,
        errorIf_eq_nil_iff, not_not] at h
      obtain ⟨data, ⟨-, hblob, rfl⟩, hmode, hcontent⟩ := h
      refine ⟨htype, hblob, hmode, fun hsym ↦ ?_, fun hsym ↦ ?_⟩
      · rw [if_pos hsym, errorIf_eq_nil_iff, not_not] at hcontent
        exact hcontent
      · rw [if_neg hsym, errorIf_eq_nil_iff, not_not] at hcontent
        exact hcontent
    · rw [pure_ok_iff] at h
      cases h
  · intro h
    rw [if_pos h.type]
    simp only [gitBlob, bind_ok_iff, pure_ok_iff, raiseIf_ok_iff, List.append_eq_nil_iff,
      errorIf_eq_nil_iff, not_not]
    refine ⟨e.blob, ⟨(), h.blob, rfl⟩, h.mode, ?_⟩
    split
    · rename_i hsym
      rw [errorIf_eq_nil_iff, not_not]
      exact h.link hsym
    · rename_i hsym
      rw [errorIf_eq_nil_iff, not_not]
      exact h.data hsym

theorem find?_path_eq_some_iff {t : Tree} {name : List CodePoint} {e : TrackedEntry} :
    t.entries.find? (fun e ↦ e.path = name) = some e ↔ e ∈ t.entries ∧ e.path = name := by
  constructor
  · intro h
    exact ⟨List.mem_of_find?_eq_some h, by simpa using List.find?_some h⟩
  · rintro ⟨he, hname⟩
    cases hfind : t.entries.find? fun e ↦ e.path = name with
    | none =>
        have hnone := List.find?_eq_none.mp hfind e he
        simp [hname] at hnone
    | some e' =>
        have he' := List.mem_of_find?_eq_some hfind
        have hname' : e'.path = name := by simpa using List.find?_some hfind
        rw [List.inj_on_of_nodup_map t.nodup he' he (hname'.trans hname.symm)]

theorem memberErrors_ok_nil_iff {t : Tree} {dirs seen : Finset (List CodePoint)}
    {info : TarInfo} :
    memberErrors t dirs seen info = .ok [] ↔ Fits t dirs info ∧ info.stripped ∉ seen := by
  unfold memberErrors
  constructor
  · intro h
    split at h
    · rename_i hdir
      simp only [pure_ok_iff, List.append_eq_nil_iff, errorIf_eq_nil_iff, not_not,
        commonErrors_eq_nil_iff] at h
      obtain ⟨⟨⟨hplain, hseen⟩, hmem⟩, hmode⟩ := h
      exact ⟨⟨hplain, Or.inl ⟨hdir, hmem, hmode⟩⟩, hseen⟩
    · rename_i hdir
      split at h
      · rename_i htype
        split at h
        · rw [pure_ok_iff, List.append_eq_nil_iff] at h
          cases h.2
        · rename_i e hfind
          simp only [bind_ok_iff, pure_ok_iff, List.append_eq_nil_iff] at h
          obtain ⟨more, hmore, hcommon, rfl⟩ := h
          obtain ⟨hplain, hseen⟩ := commonErrors_eq_nil_iff.mp hcommon
          obtain ⟨he, hpath⟩ := find?_path_eq_some_iff.mp hfind
          refine ⟨⟨hplain, Or.inr ⟨hdir, htype, e, he, hpath, ?_⟩⟩, hseen⟩
          exact contentErrors_ok_nil_iff.mp hmore
      · rw [pure_ok_iff, List.append_eq_nil_iff] at h
        cases h.2
  · rintro ⟨⟨hplain, hcontent⟩, hseen⟩
    have hcommon := commonErrors_eq_nil_iff.mpr ⟨hplain, hseen⟩
    rcases hcontent with ⟨hdir, hmem, hmode⟩ | ⟨hdir, htype, e, he, hpath, hcontent⟩
    · rw [if_pos hdir, pure_ok_iff]
      simp only [List.append_eq_nil_iff, errorIf_eq_nil_iff, not_not]
      exact ⟨⟨hcommon, hmem⟩, hmode⟩
    · rw [if_neg hdir, if_pos htype, find?_path_eq_some_iff.mpr ⟨he, hpath⟩]
      simp only [bind_ok_iff, pure_ok_iff, List.append_eq_nil_iff]
      exact ⟨[], contentErrors_ok_nil_iff.mpr hcontent, hcommon, rfl⟩

/-! ## The loop -/

theorem scanMembers_ok_nil_iff {t : Tree} {dirs : Finset (List CodePoint)} {scan final : Scan}
    {infos : List TarInfo} :
    scanMembers t dirs scan infos = .ok ([], final) ↔
      (∀ info ∈ infos, Fits t dirs info) ∧ (infos.map TarInfo.stripped).Nodup ∧
        (∀ info ∈ infos, info.stripped ∉ scan.seen) ∧ final = infos.foldl Scan.add scan := by
  induction infos generalizing scan final with
  | nil =>
      rw [scanMembers, pure_ok_iff]
      simp [eq_comm]
  | cons info infos ih =>
      have hseen : ∀ name, name ∈ (scan.add info).seen ↔ name = info.stripped ∨ name ∈ scan.seen :=
        fun name ↦ Finset.mem_insert
      simp only [scanMembers, bind_ok_iff, pure_ok_iff, Prod.mk.injEq, Prod.exists,
        List.append_eq_nil_iff, List.forall_mem_cons, List.map_cons, List.nodup_cons,
        List.foldl_cons]
      constructor
      · rintro ⟨_, hinfo, _, _, hinfos, ⟨rfl, rfl⟩, rfl⟩
        obtain ⟨hfits, hnew⟩ := memberErrors_ok_nil_iff.mp hinfo
        obtain ⟨hall, hnodup, hapart, rfl⟩ := ih.mp hinfos
        refine ⟨⟨hfits, hall⟩, ⟨?_, hnodup⟩, ⟨hnew, ?_⟩, rfl⟩
        · intro hmem
          obtain ⟨other, hother, heq⟩ := List.mem_map.mp hmem
          exact hapart other hother ((hseen _).mpr (Or.inl heq))
        · intro other hother hmem
          exact hapart other hother ((hseen _).mpr (Or.inr hmem))
      · rintro ⟨⟨hfits, hall⟩, ⟨hnotmem, hnodup⟩, ⟨hnew, hapart⟩, rfl⟩
        refine ⟨[], memberErrors_ok_nil_iff.mpr ⟨hfits, hnew⟩, [], _, ih.mpr ?_, ⟨rfl, rfl⟩, rfl⟩
        refine ⟨hall, hnodup, ?_, rfl⟩
        intro other hother hmem
        rcases (hseen _).mp hmem with heq | hmem
        · exact hnotmem (List.mem_map.mpr ⟨other, hother, heq⟩)
        · exact hapart other hother hmem

theorem actualOrder_foldl (infos : List TarInfo) (scan : Scan) :
    (infos.foldl Scan.add scan).actualOrder =
      scan.actualOrder ++ infos.map TarInfo.orderName := by
  induction infos generalizing scan with
  | nil => simp
  | cons info infos ih =>
      rw [List.foldl_cons, ih]
      simp [Scan.add]

theorem mem_actual_foldl {infos : List TarInfo} {scan : Scan} {name : List CodePoint} :
    name ∈ (infos.foldl Scan.add scan).actual ↔ name ∈ scan.actual ∨
      ∃ info ∈ infos, ¬ info.IsDir ∧ (info.IsFile ∨ info.IsSym) ∧ info.stripped = name := by
  induction infos generalizing scan with
  | nil => simp
  | cons info infos ih =>
      rw [List.foldl_cons, ih]
      by_cases h : ¬ info.IsDir ∧ (info.IsFile ∨ info.IsSym)
      · simp only [Scan.add, if_pos h, Finset.mem_insert, List.exists_mem_cons_iff]
        grind
      · simp only [Scan.add, if_neg h, List.exists_mem_cons_iff]
        grind

theorem mem_actualDirs_foldl {infos : List TarInfo} {scan : Scan} {name : List CodePoint} :
    name ∈ (infos.foldl Scan.add scan).actualDirs ↔ name ∈ scan.actualDirs ∨
      ∃ info ∈ infos, info.IsDir ∧ info.stripped = name := by
  induction infos generalizing scan with
  | nil => simp
  | cons info infos ih =>
      rw [List.foldl_cons, ih]
      by_cases h : info.IsDir
      · simp only [Scan.add, if_pos h, Finset.mem_insert, List.exists_mem_cons_iff]
        grind
      · simp only [Scan.add, if_neg h, List.exists_mem_cons_iff]
        grind

/-! ## Members side by side -/

section Aligned

variable {α β γ : Type} {f : α → γ} {g : β → γ} {R : α → β → Prop} {xs : List α} {ys : List β}

theorem forall₂_of_map_eq (h : xs.map f = ys.map g)
    (hR : ∀ x ∈ xs, ∀ y ∈ ys, f x = g y → R x y) : List.Forall₂ R xs ys := by
  induction xs generalizing ys with
  | nil =>
      rw [List.map_nil, eq_comm, List.map_eq_nil_iff] at h
      rw [h]
      exact List.Forall₂.nil
  | cons x xs ih =>
      cases ys with
      | nil => cases h
      | cons y ys =>
          rw [List.map_cons, List.map_cons, List.cons.injEq] at h
          apply List.Forall₂.cons
          · exact hR x List.mem_cons_self y List.mem_cons_self h.1
          · apply ih h.2
            intro x' hx' y' hy'
            exact hR x' (List.mem_cons_of_mem _ hx') y' (List.mem_cons_of_mem _ hy')

theorem map_eq_of_forall₂ (h : List.Forall₂ R xs ys) (hR : ∀ x y, R x y → f x = g y) :
    xs.map f = ys.map g := by
  induction h with
  | nil => rfl
  | cons hxy _ ih => rw [List.map_cons, List.map_cons, hR _ _ hxy, ih]

theorem exists_of_forall₂_left (h : List.Forall₂ R xs ys) {x : α} (hx : x ∈ xs) :
    ∃ y ∈ ys, R x y := by
  induction h with
  | nil => cases hx
  | cons hxy _ ih =>
      rcases List.mem_cons.mp hx with rfl | hx
      · exact ⟨_, List.mem_cons_self, hxy⟩
      · obtain ⟨y, hy, hxy⟩ := ih hx
        exact ⟨y, List.mem_cons_of_mem _ hy, hxy⟩

theorem exists_of_forall₂_right (h : List.Forall₂ R xs ys) {y : β} (hy : y ∈ ys) :
    ∃ x ∈ xs, R x y :=
  exists_of_forall₂_left h.flip hy

end Aligned

/-! ## The expected members -/

theorem expectedOrder_ok_iff {order : SetOrder} {t : Tree} {dirs : Finset (List CodePoint)}
    {names : List (List CodePoint)} :
    expectedOrder order t dirs = .ok names ↔
      (∀ m ∈ contents order t dirs, Named m) ∧
        names = (sortOn sortKey (contents order t dirs)).map Member.path := by
  have hkey : ∀ (name : List CodePoint) (key : List UInt8),
      (canonicalUtf8 name .archivePath).mapError CheckFailure.value = .ok key ↔
        (∃ raw, canonicalUtf8 name .archivePath = .ok raw) ∧ key = (encodeUtf8 name).getD [] := by
    intro name key
    rw [mapError_ok_iff]
    constructor
    · intro h
      refine ⟨⟨key, h⟩, ?_⟩
      rw [(canonicalUtf8_ok_iff.mp h).1]
      rfl
    · rintro ⟨⟨raw, hraw⟩, rfl⟩
      rw [hraw, (canonicalUtf8_ok_iff.mp hraw).1]
      rfl
  have hpaths : (contents order t dirs).map Member.path =
      (order.list dirs).map (· ++ [sep]) ++ t.entries.map TrackedEntry.path := by
    rw [contents, List.map_append, List.map_map, List.map_map]
    congr 1
    exact List.map_congr_left fun e _ ↦ entryMember_path e
  have hperm : ((contents order t dirs).map Member.path).Perm
      (t.entries.map TrackedEntry.path ++ (order.list dirs).map (· ++ [sep])) := by
    rw [hpaths]
    exact List.perm_append_comm
  have hnamed : (∀ name ∈ t.entries.map TrackedEntry.path ++ (order.list dirs).map (· ++ [sep]),
      ∃ raw, canonicalUtf8 name .archivePath = .ok raw) ↔
        ∀ m ∈ contents order t dirs, Named m := by
    simp only [← hperm.mem_iff, List.forall_mem_map]
    rfl
  rw [expectedOrder, sortByKey_ok_iff hkey, hnamed]
  apply and_congr_right
  intro hnamed
  have hinj : ∀ a ∈ (contents order t dirs).map Member.path,
      ∀ b ∈ (contents order t dirs).map Member.path,
        (encodeUtf8 a).getD [] = (encodeUtf8 b).getD [] → a = b := by
    simp only [List.forall_mem_map]
    intro a ha b hb heq
    exact sortKey_injective (hnamed a ha) (hnamed b hb) heq
  rw [← sortOn_eq_of_perm hperm hinj, ← map_sortOn]
  rfl

theorem entryMember_mode (e : TrackedEntry) : (entryMember e).mode = expectedMode e.mode := by
  unfold entryMember expectedMode
  split <;> simp_all

theorem Checked.mode_ne {t : Tree} {dirs : Finset (List CodePoint)} (h : Checked t dirs)
    {e : TrackedEntry} (he : e ∈ t.entries) : e.mode ≠ .gitlink := by
  intro hmode
  have hnil := h.supported
  rw [gitlinks, List.map_eq_nil_iff, List.filter_eq_nil_iff] at hnil
  exact hnil e he (by simpa using hmode)

theorem mem_contents {order : SetOrder} {t : Tree} {dirs : Finset (List CodePoint)} {m : Member} :
    m ∈ contents order t dirs ↔
      (∃ d ∈ dirs, directoryMember d = m) ∨ ∃ e ∈ t.entries, entryMember e = m := by
  simp only [contents, List.mem_append, List.mem_map, order.mem_iff]

theorem stripped_of_directory {info : TarInfo} {d : List CodePoint}
    (h : info.orderName = (directoryMember d).path) : info.IsDir ∧ info.stripped = d :=
  TarInfo.orderName_eq_concat h

theorem stripped_of_file {t : Tree} {info : TarInfo} {e : TrackedEntry} (he : e ∈ t.entries)
    (h : info.orderName = (entryMember e).path) : ¬ info.IsDir ∧ info.stripped = e.path := by
  rw [entryMember_path] at h
  exact TarInfo.orderName_eq_file h (t.files e he)

theorem entryMember_of_symlink {e : TrackedEntry} (h : e.mode = .symlink) :
    (entryMember e).kind = [50] ∧ (entryMember e).link = e.blob := by
  simp [entryMember, h]

theorem entryMember_of_file {e : TrackedEntry} (h : e.mode ≠ .symlink) :
    (entryMember e).kind = [48] ∧ (entryMember e).data = e.blob := by
  unfold entryMember
  split
  · rename_i hmode
    exact absurd hmode h
  · exact ⟨rfl, rfl⟩
  · exact ⟨rfl, rfl⟩

theorem Reports.of_hasContent {t : Tree} {e : TrackedEntry} {info : TarInfo}
    (hname : info.orderName = (entryMember e).path) (hplain : Plain t info)
    (htype : info.IsFile ∨ info.IsSym) (h : HasContent e info) :
    Reports t.timestamp info (entryMember e) := by
  have hmode := h.mode.trans (entryMember_mode e).symm
  by_cases hsymlink : e.mode = .symlink
  · obtain ⟨hkind, hlink⟩ := entryMember_of_symlink hsymlink
    have hsym := h.type.mpr hsymlink
    refine ⟨hname, Or.inr (Or.inl ⟨hkind, hsym⟩), hmode, hplain.owner, hplain.mtime,
      hplain.paxHeaders, fun _ ↦ (h.link hsym).trans hlink.symm, fun hfile ↦ ?_⟩
    rw [hkind] at hfile
    exact absurd hfile (by decide)
  · obtain ⟨hkind, hdata⟩ := entryMember_of_file hsymlink
    have hsym : ¬ info.IsSym := fun hsym ↦ hsymlink (h.type.mp hsym)
    refine ⟨hname, Or.inr (Or.inr ⟨hkind, htype.resolve_right hsym⟩), hmode, hplain.owner,
      hplain.mtime, hplain.paxHeaders, fun hlink ↦ ?_, fun _ ↦ (h.data hsym).trans hdata.symm⟩
    rw [hkind] at hlink
    exact absurd hlink (by decide)

theorem Reports.hasContent {time : ℤ} {e : TrackedEntry} {info : TarInfo}
    (h : Reports time info (entryMember e)) (hgitlink : e.mode ≠ .gitlink) :
    (info.IsFile ∨ info.IsSym) ∧ HasContent e info := by
  have hmode := h.mode.trans (entryMember_mode e)
  by_cases hsymlink : e.mode = .symlink
  · obtain ⟨hkind, hlink⟩ := entryMember_of_symlink hsymlink
    have hsym : info.IsSym := by
      rcases h.type with ⟨heq, -⟩ | ⟨-, hsym⟩ | ⟨heq, -⟩
      · exact absurd (hkind.symm.trans heq) (by decide)
      · exact hsym
      · exact absurd (hkind.symm.trans heq) (by decide)
    refine ⟨Or.inr hsym, ⟨fun _ ↦ hsymlink, fun _ ↦ hsym⟩, hgitlink, hmode,
      fun _ ↦ (h.link hkind).trans hlink, fun hnot ↦ absurd hsym hnot⟩
  · obtain ⟨hkind, hdata⟩ := entryMember_of_file hsymlink
    have hfile : info.IsFile := by
      rcases h.type with ⟨heq, -⟩ | ⟨heq, -⟩ | ⟨-, hfile⟩
      · exact absurd (hkind.symm.trans heq) (by decide)
      · exact absurd (hkind.symm.trans heq) (by decide)
      · exact hfile
    have hsym : ¬ info.IsSym := by
      intro hsym
      rw [TarInfo.IsFile, show info.type = [50] from hsym] at hfile
      exact absurd hfile (by decide)
    refine ⟨Or.inl hfile, ⟨fun h ↦ absurd h hsym, fun h ↦ absurd h hsymlink⟩, hgitlink, hmode,
      fun h ↦ absurd h hsym, fun _ ↦ (h.data hkind).trans hdata⟩

/-- A member without errors at the place of an expected one reports it. -/
theorem Fits.reports {order : SetOrder} {t : Tree} {dirs : Finset (List CodePoint)}
    {info : TarInfo} {m : Member} (h : Fits t dirs info) (hm : m ∈ contents order t dirs)
    (hname : info.orderName = m.path) : Reports t.timestamp info m := by
  rcases mem_contents.mp hm with ⟨d, hd, rfl⟩ | ⟨e, he, rfl⟩
  · obtain ⟨hdir, hstripped⟩ := stripped_of_directory hname
    rcases h.content with ⟨-, -, hmode⟩ | ⟨hnot, -⟩
    · refine ⟨hname, Or.inl ⟨rfl, hdir⟩, hmode, h.plain.owner, h.plain.mtime, h.plain.paxHeaders,
        fun hkind ↦ ?_, fun hkind ↦ ?_⟩
      · simp [directoryMember] at hkind
      · simp [directoryMember] at hkind
    · exact absurd hdir hnot
  · obtain ⟨hdir, hstripped⟩ := stripped_of_file he hname
    rcases h.content with ⟨hdir', -⟩ | ⟨-, htype, e', he', hpath, hcontent⟩
    · exact absurd hdir' hdir
    · obtain rfl : e' = e := List.inj_on_of_nodup_map t.nodup he' he (hpath.trans hstripped)
      exact Reports.of_hasContent hname h.plain htype hcontent

theorem Checked.mem_dirs {t : Tree} {dirs : Finset (List CodePoint)} (h : Checked t dirs)
    {d : List CodePoint} (hd : d ∈ dirs) : ∃ e ∈ t.entries, d ∈ dirsAbove e.path := by
  obtain ⟨name, hname, hmem⟩ := ((trackedDirs_eq_some_iff.mp h.dirs_eq).2 d).mp hd
  obtain ⟨e, he, rfl⟩ := List.mem_map.mp hname
  exact ⟨e, he, hmem⟩

/-- What reports an expected member has no errors. -/
theorem Reports.fits {order : SetOrder} {t : Tree} {dirs : Finset (List CodePoint)}
    {info : TarInfo} {m : Member} (h : Reports t.timestamp info m) (hchecked : Checked t dirs)
    (hm : m ∈ contents order t dirs) : Fits t dirs info := by
  rcases mem_contents.mp hm with ⟨d, hd, rfl⟩ | ⟨e, he, rfl⟩
  · obtain ⟨hdir, hstripped⟩ := stripped_of_directory h.name
    obtain ⟨e, he, habove⟩ := hchecked.mem_dirs hd
    refine ⟨⟨?_, ?_, ?_, h.owner, h.mtime, h.paxHeaders⟩, Or.inl ⟨hdir, ?_, h.mode⟩⟩
    · rw [hstripped]
      exact ne_nil_of_mem_dirsAbove habove
    · rw [hstripped]
      intro hbad
      exact hchecked.safe e he (hbad.of_mem_dirsAbove habove)
    · rw [hstripped]
      exact hchecked.dirs_allowed d hd
    · rw [hstripped]
      exact hd
  · obtain ⟨hdir, hstripped⟩ := stripped_of_file he h.name
    obtain ⟨htype, hcontent⟩ := h.hasContent (hchecked.mode_ne he)
    refine ⟨⟨?_, ?_, ?_, h.owner, h.mtime, h.paxHeaders⟩,
      Or.inr ⟨hdir, htype, e, he, hstripped.symm, hcontent⟩⟩
    · rw [hstripped]
      obtain ⟨raw, hraw⟩ := hchecked.files_named e he
      rw [entryMember_path] at hraw
      rintro hnil
      rw [hnil] at hraw
      cases hraw
    · rw [hstripped]
      exact hchecked.safe e he
    · rw [hstripped]
      exact hchecked.files_allowed e he

/-! ## The verdict -/

theorem sortedStrings_eq_nil_iff {names : List (List CodePoint)} :
    sortedStrings names = [] ↔ names = [] := by
  rw [← List.length_eq_zero_iff, sortedStrings, List.length_mergeSort, List.length_eq_zero_iff]

theorem listError_diff_eq_nil_iff {order : SetOrder} {s s' : Finset (List CodePoint)}
    {e : List (List CodePoint) → ValidateError} :
    listError (sortedSet order (s \ s')) e = [] ↔ s ⊆ s' := by
  have hlist : order.list (s \ s') = [] ↔ s ⊆ s' := by
    rw [List.eq_nil_iff_forall_not_mem, ← Finset.sdiff_eq_empty_iff_subset,
      Finset.eq_empty_iff_forall_notMem]
    simp only [order.mem_iff]
  rw [listError, errorIf_eq_nil_iff, not_not, sortedSet, sortedStrings_eq_nil_iff, hlist]

theorem filter_forbidden_eq_nil_iff {names : List (List CodePoint)} :
    (sortedStrings names).filter forbidden = [] ↔ ∀ name ∈ names, forbidden name = false := by
  have hmem : ∀ name, name ∈ sortedStrings names ↔ name ∈ names :=
    fun name ↦ (List.mergeSort_perm _ _).mem_iff
  rw [List.filter_eq_nil_iff]
  simp only [hmem, Bool.not_eq_true]

/-- The members of an accepted archive are aligned with the expected ones. -/
theorem reports_of_validate {order : SetOrder} {t : Tree} {archive : Option (List TarInfo)}
    (h : validate order t archive = some (.ok [])) :
    ∃ dirs infos, archive = some infos ∧ Checked t dirs ∧
      List.Forall₂ (Reports t.timestamp) infos (sortOn sortKey (contents order t dirs)) := by
  obtain ⟨dirs, hdirs, hrun⟩ := Option.map_eq_some_iff.mp h
  obtain ⟨names, hnames, hrun⟩ := bind_ok_iff.mp hrun
  obtain ⟨hnamed, rfl⟩ := expectedOrder_ok_iff.mp hnames
  cases archive with
  | none =>
      rw [pure_ok_iff] at hrun
      cases hrun
  | some infos =>
      simp only [bind_ok_iff, Prod.exists, pure_ok_iff, List.append_eq_nil_iff,
        errorIf_eq_nil_iff, not_not, filter_forbidden_eq_nil_iff, List.forall_mem_map,
        List.map_eq_nil_iff] at hrun
      obtain ⟨_, final, hscan, ⟨⟨⟨⟨⟨⟨hgitlinks, rfl⟩, horder⟩, -⟩, -⟩, -⟩, -⟩, hallowed⟩ := hrun
      obtain ⟨hfits, hnodup, -, rfl⟩ := scanMembers_ok_nil_iff.mp hscan
      rw [actualOrder_foldl, List.nil_append] at horder
      have hreports : List.Forall₂ (Reports t.timestamp) infos
          (sortOn sortKey (contents order t dirs)) := by
        apply forall₂_of_map_eq horder
        intro info hinfo m hm hname
        exact (hfits info hinfo).reports (mem_sortOn.mp hm) hname
      have hdir : ∀ d ∈ dirs, ∃ info ∈ infos, info.IsDir ∧ info.stripped = d := by
        intro d hd
        obtain ⟨info, hinfo, hreport⟩ := exists_of_forall₂_right hreports
          (mem_sortOn.mpr (mem_contents.mpr (Or.inl ⟨d, hd, rfl⟩)))
        exact ⟨info, hinfo, stripped_of_directory hreport.name⟩
      have hfile : ∀ e ∈ t.entries, ∃ info ∈ infos, ¬ info.IsDir ∧ info.stripped = e.path := by
        intro e he
        obtain ⟨info, hinfo, hreport⟩ := exists_of_forall₂_right hreports
          (mem_sortOn.mpr (mem_contents.mpr (Or.inr ⟨e, he, rfl⟩)))
        exact ⟨info, hinfo, stripped_of_file he hreport.name⟩
      refine ⟨dirs, infos, rfl, ⟨hdirs, hgitlinks, ?_, hallowed, ?_, ?_, ?_, ?_⟩, hreports⟩
      · intro d hd
        obtain ⟨info, hinfo, -, rfl⟩ := hdir d hd
        exact (hfits info hinfo).plain.allowed
      · intro e he
        obtain ⟨info, hinfo, -, hstripped⟩ := hfile e he
        rw [← hstripped]
        exact (hfits info hinfo).plain.safe
      · -- the same name twice is a duplicate
        intro e he hmem
        obtain ⟨info, hinfo, hnot, hstripped⟩ := hfile e he
        obtain ⟨info', hinfo', hisDir, hstripped'⟩ := hdir e.path hmem
        have heq := List.inj_on_of_nodup_map hnodup hinfo hinfo' (hstripped.trans hstripped'.symm)
        exact hnot (heq ▸ hisDir)
      · intro d hd
        exact hnamed _ (mem_contents.mpr (Or.inl ⟨d, hd, rfl⟩))
      · intro e he
        exact hnamed _ (mem_contents.mpr (Or.inr ⟨e, he, rfl⟩))

theorem Checked.named {order : SetOrder} {t : Tree} {dirs : Finset (List CodePoint)}
    (h : Checked t dirs) : ∀ m ∈ contents order t dirs, Named m := by
  intro m hm
  rcases mem_contents.mp hm with ⟨d, hd, rfl⟩ | ⟨e, he, rfl⟩
  · exact h.dirs_named d hd
  · exact h.files_named e he

/-- No name is reported twice. -/
theorem stripped_nodup {order : SetOrder} {t : Tree} {dirs : Finset (List CodePoint)}
    {infos : List TarInfo} (hchecked : Checked t dirs)
    (h : List.Forall₂ (Reports t.timestamp) infos (sortOn sortKey (contents order t dirs))) :
    (infos.map TarInfo.stripped).Nodup := by
  have horder : (infos.map TarInfo.orderName).Nodup := by
    rw [map_eq_of_forall₂ h fun _ _ hreport ↦ hreport.name]
    exact ((sortOn_perm sortKey _).map Member.path).nodup_iff.mpr (contents_paths_nodup order t dirs)
  apply List.Nodup.map_on ?_ horder.of_map
  intro info hinfo info' hinfo' heq
  apply List.inj_on_of_nodup_map horder hinfo hinfo'
  obtain ⟨m, hm, hreport⟩ := exists_of_forall₂_left h hinfo
  obtain ⟨m', hm', hreport'⟩ := exists_of_forall₂_left h hinfo'
  have hdisjoint : ∀ d ∈ dirs, ∀ e ∈ t.entries, d ≠ e.path := by
    rintro d hd e he rfl
    exact hchecked.apart e he hd
  rcases mem_contents.mp (mem_sortOn.mp hm) with ⟨d, hd, rfl⟩ | ⟨e, he, rfl⟩ <;>
    rcases mem_contents.mp (mem_sortOn.mp hm') with ⟨d', hd', rfl⟩ | ⟨e', he', rfl⟩
  · obtain ⟨hisDir, -⟩ := stripped_of_directory hreport.name
    obtain ⟨hisDir', -⟩ := stripped_of_directory hreport'.name
    rw [TarInfo.orderName, TarInfo.orderName, if_pos hisDir, if_pos hisDir', heq]
  · obtain ⟨-, hd'⟩ := stripped_of_directory hreport.name
    obtain ⟨-, he⟩ := stripped_of_file he' hreport'.name
    exact absurd (hd'.symm.trans (heq.trans he)) (hdisjoint d hd e' he')
  · obtain ⟨-, he'⟩ := stripped_of_file he hreport.name
    obtain ⟨-, hd⟩ := stripped_of_directory hreport'.name
    exact absurd (hd.symm.trans (heq.symm.trans he')) (hdisjoint d' hd' e he)
  · obtain ⟨hisDir, -⟩ := stripped_of_file he hreport.name
    obtain ⟨hisDir', -⟩ := stripped_of_file he' hreport'.name
    rw [TarInfo.orderName, TarInfo.orderName, if_neg hisDir, if_neg hisDir', heq]

theorem validate_of_reports {order : SetOrder} {t : Tree} {dirs : Finset (List CodePoint)}
    {infos : List TarInfo} (hchecked : Checked t dirs)
    (h : List.Forall₂ (Reports t.timestamp) infos (sortOn sortKey (contents order t dirs))) :
    validate order t (some infos) = some (.ok []) := by
  have hscan : scanMembers t dirs {} infos = .ok ([], infos.foldl Scan.add {}) := by
    apply scanMembers_ok_nil_iff.mpr
    refine ⟨fun info hinfo ↦ ?_, stripped_nodup hchecked h, fun info _ ↦ Finset.notMem_empty _, rfl⟩
    obtain ⟨m, hm, hreport⟩ := exists_of_forall₂_left h hinfo
    exact hreport.fits hchecked (mem_sortOn.mp hm)
  apply Option.map_eq_some_iff.mpr
  refine ⟨dirs, hchecked.dirs_eq, ?_⟩
  simp only [bind_ok_iff, Prod.exists, pure_ok_iff, List.append_eq_nil_iff, errorIf_eq_nil_iff,
    not_not, filter_forbidden_eq_nil_iff, List.forall_mem_map, List.map_eq_nil_iff,
    listError_diff_eq_nil_iff]
  refine ⟨_, expectedOrder_ok_iff.mpr ⟨hchecked.named, rfl⟩, [], _, hscan,
    ⟨⟨⟨⟨⟨⟨hchecked.supported, rfl⟩, ?_⟩, ?_⟩, ?_⟩, ?_⟩, ?_⟩, hchecked.files_allowed⟩
  · rw [actualOrder_foldl, List.nil_append]
    exact map_eq_of_forall₂ h fun _ _ hreport ↦ hreport.name
  · intro path hpath
    rw [List.mem_toFinset] at hpath
    obtain ⟨e, he, rfl⟩ := List.mem_map.mp hpath
    obtain ⟨info, hinfo, hreport⟩ := exists_of_forall₂_right h
      (mem_sortOn.mpr (mem_contents.mpr (Or.inr ⟨e, he, rfl⟩)))
    obtain ⟨hdir, hstripped⟩ := stripped_of_file he hreport.name
    apply mem_actual_foldl.mpr
    exact Or.inr ⟨info, hinfo, hdir, (hreport.hasContent (hchecked.mode_ne he)).1, hstripped⟩
  · intro path hpath
    obtain ⟨info, hinfo, hdir, -, rfl⟩ := (mem_actual_foldl.mp hpath).resolve_left
      (Finset.notMem_empty path)
    obtain ⟨m, hm, hreport⟩ := exists_of_forall₂_left h hinfo
    rcases mem_contents.mp (mem_sortOn.mp hm) with ⟨d, hd, rfl⟩ | ⟨e, he, rfl⟩
    · exact absurd (stripped_of_directory hreport.name).1 hdir
    · rw [List.mem_toFinset, (stripped_of_file he hreport.name).2]
      exact List.mem_map_of_mem he
  · intro d hd
    obtain ⟨info, hinfo, hreport⟩ := exists_of_forall₂_right h
      (mem_sortOn.mpr (mem_contents.mpr (Or.inl ⟨d, hd, rfl⟩)))
    apply mem_actualDirs_foldl.mpr
    exact Or.inr ⟨info, hinfo, stripped_of_directory hreport.name⟩
  · intro path hpath
    obtain ⟨info, hinfo, hdir, rfl⟩ := (mem_actualDirs_foldl.mp hpath).resolve_left
      (Finset.notMem_empty path)
    obtain ⟨m, hm, hreport⟩ := exists_of_forall₂_left h hinfo
    rcases mem_contents.mp (mem_sortOn.mp hm) with ⟨d, hd, rfl⟩ | ⟨e, he, rfl⟩
    · rw [(stripped_of_directory hreport.name).2]
      exact hd
    · exact absurd hdir (stripped_of_file he hreport.name).1

/-- The validator accepts an archive exactly when the tar reader reports, one by
one and in order, the members of the canonical archive of the commit. -/
theorem validate_accepts_iff (order : SetOrder) (t : Tree) (archive : Option (List TarInfo)) :
    validate order t archive = some (.ok []) ↔
      ∃ dirs infos, archive = some infos ∧ Checked t dirs ∧
        List.Forall₂ (Reports t.timestamp) infos (sortOn sortKey (contents order t dirs)) := by
  constructor
  · exact reports_of_validate
  · rintro ⟨dirs, infos, rfl, hchecked, hreports⟩
    exact validate_of_reports hchecked hreports

/-! ## Building -/

inductive BuildError where
  | content (e : ValidateError)
  | notCanonical
  | cannotCompare (e : ArchiveError)
deriving DecidableEq

inductive BuildResult where
  | written (bytes : List UInt8)
  | refused (e : ArchiveError)
  | notReproducible
  | discarded (errors : List BuildError)
  | crashed (failure : CheckFailure)
deriving DecidableEq

def canonicalErrors (crc32 : List UInt8 → ℕ) (order : SetOrder) (t : Tree)
    (observed : List UInt8) : Option (List BuildError) := do
  match ← archiveBytes crc32 order t with
  | .error e => return [.cannotCompare e]
  | .ok expected => return errorIf (observed ≠ expected) .notCanonical

/-- `sha256` and `tarfile` stand for the libraries; each of the four passes over
the commit iterates its sets in its own order. -/
def build {digest : Type} [DecidableEq digest] (crc32 : List UInt8 → ℕ)
    (sha256 : List UInt8 → digest) (tarfile : List UInt8 → Option (List TarInfo))
    (pass : ℕ → SetOrder) (t : Tree) : Option BuildResult := do
  match ← archiveBytes crc32 (pass 0) t with
  | .error e => return .refused e
  | .ok first =>
      match ← archiveBytes crc32 (pass 1) t with
      | .error e => return .refused e
      | .ok second =>
          if sha256 first ≠ sha256 second then return .notReproducible
          else
            match ← validate (pass 2) t (tarfile first) with
            | .error failure => return .crashed failure
            | .ok errors => do
                let more ← canonicalErrors crc32 (pass 3) t first
                if errors.map .content ++ more = [] then return .written first
                else return .discarded (errors.map .content ++ more)

/-- What the tar reader reports of a member of a canonical archive. -/
def TarInfo.ofMember (time : ℤ) (m : Member) : TarInfo where
  name := if m.kind = [53] then rstrip m.path else m.path
  type := m.kind
  mode := m.mode
  uid := 0
  gid := 0
  uname := []
  gname := []
  mtime := some (time : ℚ)
  paxHeaders := []
  linkname := (decodeUtf8 m.link).getD []
  data := m.payload

/-- The tar reader reads the archives that the serializer writes. -/
def ReadsCanonical (crc32 : List UInt8 → ℕ) (tarfile : List UInt8 → Option (List TarInfo)) :
    Prop :=
  ∀ members time tar out, serializeTar members time = .ok tar → canonicalGzip crc32 tar = some out →
    (∀ m ∈ members, decodeUtf8 m.link ≠ none ∧ ¬ [sep, sep] <:+ m.path) →
      tarfile out = some (members.map (TarInfo.ofMember time))

/-- A header written by the serializer names no owner. -/
def TarInfo.ofEntry (x : Entry) : TarInfo where
  name := if x.kind = [53] then rstrip x.path else x.path
  type := x.kind
  mode := x.mode
  uid := x.uid
  gid := x.gid
  uname := []
  gname := []
  mtime := some (x.mtime : ℚ)
  paxHeaders := []
  linkname := (decodeUtf8 x.link).getD []
  data := x.data

theorem readsCanonical_readArchive (crc32 : List UInt8 → ℕ) :
    ReadsCanonical crc32 fun bytes ↦ (readArchive crc32 bytes).map (List.map TarInfo.ofEntry) := by
  intro members time tar out hserialize hgzip _
  obtain ⟨out', hout', hgunzip⟩ := canonicalGzip_gunzip crc32 tar
  obtain rfl : out = out' := Option.some.inj (hgzip.symm.trans hout')
  simp only [serializeTar, bind_ok_iff, pure_ok_iff] at hserialize
  obtain ⟨body, hbody, rfl⟩ := hserialize
  have hentries : readArchive crc32 out = some (members.map (entryOf time)) := by
    rw [readArchive, hgunzip, Option.bind_some, readTar_serializeMembers hbody]
  change (readArchive crc32 out).map (List.map TarInfo.ofEntry) = _
  rw [hentries, Option.map_some, List.map_map]
  rfl

theorem getLast?_of_mem_dirsAbove {name d : List CodePoint} (h : d ∈ dirsAbove name) :
    d.getLast? ≠ some sep := by
  obtain ⟨ps, hparts, hne, rfl, -⟩ := mem_dirsAbove h
  exact hparts.getLast?_intercalate hne

theorem Accepted.checked {t : Tree} {dirs : Finset (List CodePoint)} (h : Accepted t dirs)
    (hapart : ∀ e ∈ t.entries, ∀ e' ∈ t.entries, e.path ∉ dirsAbove e'.path) : Checked t dirs where
  dirs_eq := h.dirs_eq
  supported := gitlinks_of_packable h.packable
  dirs_allowed := h.allowed
  files_allowed := fun e he ↦ (h.packable e he).allowed
  safe := fun e he ↦ (h.packable e he).safe
  apart := by
    intro e he hmem
    obtain ⟨name, hname, habove⟩ := ((trackedDirs_eq_some_iff.mp h.dirs_eq).2 e.path).mp hmem
    obtain ⟨e', he', rfl⟩ := List.mem_map.mp hname
    exact hapart e he e' he' habove
  dirs_named := h.dirs_named
  files_named := h.files_named

theorem ofMember_directory {time : ℤ} {d : List CodePoint} (h : d.getLast? ≠ some sep) :
    Reports time (TarInfo.ofMember time (directoryMember d)) (directoryMember d) := by
  have hdir : (TarInfo.ofMember time (directoryMember d)).IsDir := rfl
  have hstripped : (TarInfo.ofMember time (directoryMember d)).stripped = d := by
    change rstrip (if ([53] : List UInt8) = [53] then rstrip (d ++ [sep]) else d ++ [sep]) = d
    rw [if_pos rfl, rstrip_concat h, rstrip_of_getLast? h]
  refine ⟨?_, Or.inl ⟨rfl, hdir⟩, rfl, ⟨rfl, rfl, rfl, rfl⟩, rfl, rfl, fun hkind ↦ ?_,
    fun hkind ↦ ?_⟩
  · rw [TarInfo.orderName, if_pos hdir, hstripped]
    rfl
  · simp [directoryMember] at hkind
  · simp [directoryMember] at hkind

theorem entryMember_link_decodes {e : TrackedEntry} (h : Packable e) :
    decodeUtf8 (entryMember e).link ≠ none := by
  rcases h.mode with hmode | hmode | ⟨hmode, hblob⟩
  · simp [entryMember, hmode, decodeUtf8]
  · simp [entryMember, hmode, decodeUtf8]
  · rw [(entryMember_of_symlink hmode).2]
    exact hblob

theorem ofMember_file {t : Tree} {e : TrackedEntry} (he : e ∈ t.entries) (hpack : Packable e) :
    Reports t.timestamp (TarInfo.ofMember t.timestamp (entryMember e)) (entryMember e) := by
  have hkind := entryMember_kind_ne e
  have hdir : ¬ (TarInfo.ofMember t.timestamp (entryMember e)).IsDir := hkind
  have hname : (TarInfo.ofMember t.timestamp (entryMember e)).orderName = (entryMember e).path := by
    rw [TarInfo.orderName, if_neg hdir, TarInfo.stripped, TarInfo.ofMember, if_neg hkind,
      entryMember_path, rstrip_of_getLast? (t.files e he)]
  have hmode : (entryMember e).mode % 512 = (entryMember e).mode := by
    rw [entryMember_mode]
    unfold expectedMode
    split <;> decide
  refine ⟨hname, ?_, hmode, ⟨rfl, rfl, rfl, rfl⟩, rfl, rfl, fun _ ↦ ?_, fun hfile ↦ ?_⟩
  · by_cases hsymlink : e.mode = .symlink
    · have hsym := (entryMember_of_symlink hsymlink).1
      exact Or.inr (Or.inl ⟨hsym, hsym⟩)
    · have hfile := (entryMember_of_file hsymlink).1
      refine Or.inr (Or.inr ⟨hfile, ?_⟩)
      change (entryMember e).kind ∈ _
      rw [hfile]
      decide
  · obtain ⟨link, hlink⟩ := Option.ne_none_iff_exists'.mp (entryMember_link_decodes hpack)
    change (encodeUtf8 ((decodeUtf8 (entryMember e).link).getD [])).getD [] = _
    rw [hlink, Option.getD_some, encodeUtf8_decodeUtf8 hlink]
    rfl
  · change (entryMember e).payload = _
    rw [Member.payload, if_pos hfile]

theorem Accepted.validate_ofMember {order : SetOrder} {t : Tree} {dirs : Finset (List CodePoint)}
    (h : Accepted t dirs)
    (hapart : ∀ e ∈ t.entries, ∀ e' ∈ t.entries, e.path ∉ dirsAbove e'.path) :
    validate order t (some ((sortOn sortKey (contents order t dirs)).map
      (TarInfo.ofMember t.timestamp))) = some (.ok []) := by
  have hchecked := h.checked hapart
  apply validate_of_reports hchecked
  rw [List.forall₂_map_left_iff, List.forall₂_same]
  intro m hm
  rcases mem_contents.mp (mem_sortOn.mp hm) with ⟨d, hd, rfl⟩ | ⟨e, he, rfl⟩
  · obtain ⟨e, he, habove⟩ := hchecked.mem_dirs hd
    exact ofMember_directory (getLast?_of_mem_dirsAbove habove)
  · exact ofMember_file he (h.packable e he)

theorem tarfile_archiveBytes {crc32 : List UInt8 → ℕ}
    {tarfile : List UInt8 → Option (List TarInfo)} (hread : ReadsCanonical crc32 tarfile)
    {order : SetOrder} {t : Tree} {out : List UInt8}
    (h : archiveBytes crc32 order t = some (.ok out)) :
    ∃ dirs, Accepted t dirs ∧ tarfile out =
      some ((sortOn sortKey (contents order t dirs)).map (TarInfo.ofMember t.timestamp)) := by
  obtain ⟨tar, htar, hgzip⟩ := archiveBytes_ok_iff.mp h
  obtain ⟨dirs, haccepted, hserialize⟩ := archiveTarBytes_ok_iff.mp htar
  refine ⟨dirs, haccepted, hread _ _ _ _ hserialize hgzip ?_⟩
  have hmem := (trackedDirs_eq_some_iff.mp haccepted.dirs_eq).2
  intro m hm
  rcases mem_contents.mp (mem_sortOn.mp hm) with ⟨d, hd, rfl⟩ | ⟨e, he, rfl⟩
  · obtain ⟨name, -, habove⟩ := (hmem d).mp hd
    refine ⟨by simp [directoryMember, decodeUtf8], fun hsuffix ↦ ?_⟩
    have hlast := getLast?_of_mem_dirsAbove habove
    obtain ⟨front, hfront⟩ := hsuffix
    have heq : (front ++ [sep]) ++ [sep] = d ++ [sep] := by
      rw [List.append_assoc]
      exact hfront
    apply hlast
    rw [← List.append_cancel_right heq, List.getLast?_concat]
  · refine ⟨entryMember_link_decodes (haccepted.packable e he), fun hsuffix ↦ ?_⟩
    obtain ⟨front, hfront⟩ := hsuffix
    rw [entryMember_path] at hfront
    apply t.files e he
    rw [← hfront]
    simp

/-- The checks of a build never change its outcome: what the builder writes is
kept, whatever the order in which each pass iterates its sets. -/
theorem build_eq {digest : Type} [DecidableEq digest] {crc32 : List UInt8 → ℕ}
    (sha256 : List UInt8 → digest) {tarfile : List UInt8 → Option (List TarInfo)}
    (hread : ReadsCanonical crc32 tarfile) (pass : ℕ → SetOrder) {t : Tree}
    (hapart : ∀ e ∈ t.entries, ∀ e' ∈ t.entries, e.path ∉ dirsAbove e'.path) :
    build crc32 sha256 tarfile pass t =
      (archiveBytes crc32 (pass 0) t).map fun result ↦
        match result with
        | .ok bytes => .written bytes
        | .error e => .refused e := by
  cases hfirst : archiveBytes crc32 (pass 0) t with
  | none => simp [build, hfirst]
  | some result =>
      cases result with
      | error e => simp [build, hfirst]
      | ok first =>
          have hagain : ∀ i, archiveBytes crc32 (pass i) t = some (.ok first) :=
            fun i ↦ archiveBytes_congr (List.Perm.refl _) (fun _ ↦ rfl) hfirst
          obtain ⟨dirs, haccepted, hinfos⟩ := tarfile_archiveBytes hread (hagain 2)
          have hvalid : validate (pass 2) t (tarfile first) = some (.ok []) := by
            rw [hinfos]
            exact haccepted.validate_ofMember hapart
          have hcanonical : canonicalErrors crc32 (pass 3) t first = some [] := by
            simp [canonicalErrors, hagain 3, errorIf]
          simp [build, hagain, hvalid, hcanonical]

theorem build_eq_sample :
    ∃ bytes, build (fun _ ↦ 0) id
      (fun bytes ↦ (readArchive (fun _ ↦ 0) bytes).map (List.map TarInfo.ofEntry))
      (fun _ ↦ sortedOrder) (sampleTree 5) = some (.written bytes) := by
  obtain ⟨out, hout⟩ := sampleTree_packs (fun _ ↦ 0) sortedOrder 5 (by decide +kernel)
  refine ⟨out, ?_⟩
  rw [build_eq id (readsCanonical_readArchive _) (fun _ ↦ sortedOrder) (by decide +kernel), hout]
  rfl

end Henret.Archive
