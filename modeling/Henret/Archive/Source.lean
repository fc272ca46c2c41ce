import Henret.Archive.Gzip
import Henret.Archive.TarReading
import Henret.Lib.KeySort
import Henret.Lib.PosixPath

/-!
# The canonical source archive of a commit

Every tracked entry becomes a member, and so does every directory above one;
the members are sorted by the bytes of their paths.  The bytes of the archive
depend on what the commit tracks and on nothing else, and a reader recovers the
commit from them.
-/

namespace Henret.Archive

open KeySort Outcome PyStr PosixPath

/-- The modes that Git records for an entry of a tree. -/
inductive GitMode where
  | regular
  | executable
  | symlink
  | gitlink
  | other (mode : String)
deriving DecidableEq, Repr

structure TrackedEntry where
  path : List CodePoint
  mode : GitMode
  blob : List UInt8
deriving DecidableEq

/-- What a commit tracks: each path once, and files only. -/
structure Tree where
  entries : List TrackedEntry
  timestamp : ℤ
  nodup : (entries.map TrackedEntry.path).Nodup
  files : ∀ e ∈ entries, e.path.getLast? ≠ some sep

/-- The order in which a set is iterated: each element once. -/
structure SetOrder where
  list : Finset (List CodePoint) → List (List CodePoint)
  nodup : ∀ s, (list s).Nodup
  mem_iff : ∀ s x, x ∈ list s ↔ x ∈ s

inductive ArchiveError where
  | gitlinks (paths : List (List CodePoint))
  | policy (path : List CodePoint)
  | unsafePath (path : List CodePoint)
  | symlinkTarget (path : List CodePoint)
  | gitMode (mode : GitMode) (path : List CodePoint)
  | tar (e : TarError)
deriving DecidableEq

/-- `FORBIDDEN`. -/
def forbiddenItems : List (List CodePoint) :=
  [".git", ".git-exclude", ".lake", "release", "docs/book", "__pycache__", ".cache", ".elan"].map
    ofString

def forbidden (path : List CodePoint) : Bool :=
  forbiddenItems.any fun item ↦ path = item || (item ++ [sep]).isPrefixOf path

/-- Every proper parent directory of a path; `none` when the loop does not end. -/
def trackedDirs (paths : List (List CodePoint)) : Option (Finset (List CodePoint)) :=
  (paths.mapM fun name ↦ (PurePosixPath.ofStr name).parent.climb).map fun dirs ↦
    dirs.flatten.toFinset

def dirMember (directory : List CodePoint) : Except ArchiveError Member := do
  raiseIf (forbidden directory) (.policy directory)
  return { path := directory ++ [sep], mode := 0o755, kind := [53] }

/-- `p.is_absolute() or ".." in p.parts or path.startswith("./")`. -/
def UnsafePath (path : List CodePoint) : Prop :=
  (PurePosixPath.ofStr path).IsAbsolute ∨ [dot, dot] ∈ (PurePosixPath.ofStr path).parts ∨
    [dot, sep] <+: path

instance (path : List CodePoint) : Decidable (UnsafePath path) :=
  inferInstanceAs (Decidable (_ ∨ _ ∨ _))

def fileMember (e : TrackedEntry) : Except ArchiveError Member := do
  raiseIf (forbidden e.path) (.policy e.path)
  raiseIf (UnsafePath e.path) (.unsafePath e.path)
  match e.mode with
  | .symlink => do
      raiseIf (decodeUtf8 e.blob = none) (.symlinkTarget e.path)
      return { path := e.path, mode := 0o777, kind := [50], link := e.blob }
  | .regular => return { path := e.path, mode := 0o644, kind := [48], data := e.blob }
  | .executable => return { path := e.path, mode := 0o755, kind := [48], data := e.blob }
  | mode => throw (.gitMode mode e.path)

def sortMembers (members : List Member) : Except ArchiveError (List Member) :=
  sortByKey (fun m ↦ (canonicalUtf8 m.path .archivePath).mapError .tar) members

def gitlinks (t : Tree) : List (List CodePoint) :=
  (t.entries.filter fun e ↦ e.mode = .gitlink).map TrackedEntry.path

/-- `sorted` of strings compares code points. -/
def sortedStrings (l : List (List CodePoint)) : List (List CodePoint) :=
  l.mergeSort fun a b ↦ a.map CodePoint.val ≤ b.map CodePoint.val

def archiveTarBytes (order : SetOrder) (t : Tree) : Option (Except ArchiveError (List UInt8)) :=
  if gitlinks t ≠ [] then some (throw (.gitlinks (sortedStrings (gitlinks t))))
  else
    (trackedDirs (t.entries.map TrackedEntry.path)).map fun directories ↦ do
      let dirMembers ← (order.list directories).mapM dirMember
      let fileMembers ← t.entries.mapM fileMember
      let members ← sortMembers (dirMembers ++ fileMembers)
      (serializeTar members t.timestamp).mapError .tar

/-- `crc32` stands for `binascii.crc32`. -/
def archiveBytes (crc32 : List UInt8 → ℕ) (order : SetOrder) (t : Tree) :
    Option (Except ArchiveError (List UInt8)) :=
  match archiveTarBytes order t with
  | some (.ok tar) => (canonicalGzip crc32 tar).map Except.ok
  | failed => failed

/-! ## What the builder accepts -/

def directoryMember (directory : List CodePoint) : Member :=
  { path := directory ++ [sep], mode := 0o755, kind := [53] }

/-- The member of an entry whose mode is supported. -/
def entryMember (e : TrackedEntry) : Member :=
  match e.mode with
  | .symlink => { path := e.path, mode := 0o777, kind := [50], link := e.blob }
  | .executable => { path := e.path, mode := 0o755, kind := [48], data := e.blob }
  | _ => { path := e.path, mode := 0o644, kind := [48], data := e.blob }

@[simp] theorem entryMember_path (e : TrackedEntry) : (entryMember e).path = e.path := by
  unfold entryMember
  split <;> rfl

structure Packable (e : TrackedEntry) : Prop where
  allowed : forbidden e.path = false
  safe : ¬ UnsafePath e.path
  mode : e.mode = .regular ∨ e.mode = .executable ∨
    e.mode = .symlink ∧ decodeUtf8 e.blob ≠ none

theorem dirMember_ok_iff (d : List CodePoint) (m : Member) :
    dirMember d = .ok m ↔ forbidden d = false ∧ m = directoryMember d := by
  simp only [dirMember, bind_ok_iff, raiseIf_ok_iff, pure_ok_iff, Bool.not_eq_true]
  constructor
  · rintro ⟨-, hallowed, rfl⟩
    exact ⟨hallowed, rfl⟩
  · rintro ⟨hallowed, rfl⟩
    exact ⟨(), hallowed, rfl⟩

theorem fileMember_ok_iff (e : TrackedEntry) (m : Member) :
    fileMember e = .ok m ↔ Packable e ∧ m = entryMember e := by
  simp only [fileMember, bind_ok_iff, raiseIf_ok_iff, Bool.not_eq_true]
  constructor
  · rintro ⟨-, hallowed, -, hsafe, hmode⟩
    split at hmode
    · next h =>
        simp only [bind_ok_iff, raiseIf_ok_iff, pure_ok_iff] at hmode
        obtain ⟨-, hutf8, rfl⟩ := hmode
        exact ⟨⟨hallowed, hsafe, Or.inr (Or.inr ⟨h, hutf8⟩)⟩, by simp [entryMember, h]⟩
    · next h =>
        rw [pure_ok_iff] at hmode
        exact ⟨⟨hallowed, hsafe, Or.inl h⟩, by simp [← hmode, entryMember, h]⟩
    · next h =>
        rw [pure_ok_iff] at hmode
        exact ⟨⟨hallowed, hsafe, Or.inr (Or.inl h)⟩, by simp [← hmode, entryMember, h]⟩
    · cases hmode
  · rintro ⟨⟨hallowed, hsafe, hmode⟩, rfl⟩
    refine ⟨(), hallowed, (), hsafe, ?_⟩
    rcases hmode with h | h | ⟨h, hutf8⟩
    · simp [entryMember, h, pure_ok_iff]
    · simp [entryMember, h, pure_ok_iff]
    · simp only [entryMember, h, raiseIf, hutf8, if_false]
      rfl

/-- The bytes by which members are sorted. -/
def sortKey (m : Member) : List UInt8 :=
  (encodeUtf8 m.path).getD []

def Named (m : Member) : Prop :=
  ∃ raw, canonicalUtf8 m.path .archivePath = .ok raw

theorem named_of_isOk {m : Member} (h : (canonicalUtf8 m.path .archivePath).isOk = true) :
    Named m := by
  cases hraw : canonicalUtf8 m.path .archivePath with
  | ok raw => exact ⟨raw, hraw⟩
  | error e => simp [hraw, Except.isOk, Except.toBool] at h

theorem Named.sortKey_eq {m : Member} (h : Named m) : encodeUtf8 m.path = some (sortKey m) := by
  obtain ⟨raw, hraw⟩ := h
  rw [sortKey, (canonicalUtf8_ok_iff.mp hraw).1]
  rfl

theorem sortMembers_ok_iff {members out : List Member} :
    sortMembers members = .ok out ↔ (∀ m ∈ members, Named m) ∧ out = sortOn sortKey members := by
  apply sortByKey_ok_iff
  intro m key
  rw [mapError_ok_iff]
  constructor
  · intro hkey
    refine ⟨⟨key, hkey⟩, ?_⟩
    rw [sortKey, (canonicalUtf8_ok_iff.mp hkey).1]
    rfl
  · rintro ⟨⟨raw, hraw⟩, rfl⟩
    rw [hraw, sortKey, (canonicalUtf8_ok_iff.mp hraw).1]
    rfl

/-- The members of a commit, before they are sorted. -/
def contents (order : SetOrder) (t : Tree) (dirs : Finset (List CodePoint)) : List Member :=
  (order.list dirs).map directoryMember ++ t.entries.map entryMember

/-- What the builder checks before it serializes anything. -/
structure Accepted (t : Tree) (dirs : Finset (List CodePoint)) : Prop where
  dirs_eq : trackedDirs (t.entries.map TrackedEntry.path) = some dirs
  allowed : ∀ d ∈ dirs, forbidden d = false
  packable : ∀ e ∈ t.entries, Packable e
  dirs_named : ∀ d ∈ dirs, Named (directoryMember d)
  files_named : ∀ e ∈ t.entries, Named (entryMember e)

theorem gitlinks_of_packable {t : Tree} (h : ∀ e ∈ t.entries, Packable e) : gitlinks t = [] := by
  rw [gitlinks, List.map_eq_nil_iff, List.filter_eq_nil_iff]
  intro e he
  rcases (h e he).mode with hmode | hmode | ⟨hmode, -⟩ <;> simp [hmode]

theorem archiveTarBytes_ok_iff {order : SetOrder} {t : Tree} {out : List UInt8} :
    archiveTarBytes order t = some (.ok out) ↔ ∃ dirs, Accepted t dirs ∧
      serializeTar (sortOn sortKey (contents order t dirs)) t.timestamp = .ok out := by
  unfold archiveTarBytes
  constructor
  · intro h
    split at h
    · cases h
    · obtain ⟨dirs, hdirs, hrun⟩ := Option.map_eq_some_iff.mp h
      simp only [bind_ok_iff, mapM_ok_iff_map dirMember_ok_iff, mapM_ok_iff_map fileMember_ok_iff,
        sortMembers_ok_iff, mapError_ok_iff] at hrun
      obtain ⟨-, ⟨hallowed, rfl⟩, -, ⟨hpackable, rfl⟩, -, ⟨hnamed, rfl⟩, hout⟩ := hrun
      refine ⟨dirs, ⟨hdirs, fun d hd ↦ ?_, hpackable, fun d hd ↦ ?_, fun e he ↦ ?_⟩, hout⟩
      · exact hallowed d ((order.mem_iff dirs d).mpr hd)
      · apply hnamed
        exact List.mem_append_left _ (List.mem_map_of_mem ((order.mem_iff dirs d).mpr hd))
      · exact hnamed _ (List.mem_append_right _ (List.mem_map_of_mem he))
  · rintro ⟨dirs, haccepted, hout⟩
    rw [if_neg (not_not_intro (gitlinks_of_packable haccepted.packable)), haccepted.dirs_eq,
      Option.map_some, Option.some.injEq]
    simp only [bind_ok_iff, mapM_ok_iff_map dirMember_ok_iff, mapM_ok_iff_map fileMember_ok_iff,
      sortMembers_ok_iff, mapError_ok_iff]
    refine ⟨_, ⟨fun d hd ↦ ?_, rfl⟩, _, ⟨haccepted.packable, rfl⟩, _, ⟨fun m hm ↦ ?_, rfl⟩, hout⟩
    · exact haccepted.allowed d ((order.mem_iff dirs d).mp hd)
    · rcases List.mem_append.mp hm with hm | hm
      · obtain ⟨d, hd, rfl⟩ := List.mem_map.mp hm
        exact haccepted.dirs_named d ((order.mem_iff dirs d).mp hd)
      · obtain ⟨e, he, rfl⟩ := List.mem_map.mp hm
        exact haccepted.files_named e he

/-! ## The bytes depend on the commit only -/

/-- The directories above a path. -/
def dirsAbove (name : List CodePoint) : List (List CodePoint) :=
  (PurePosixPath.ofStr name).ancestors

theorem trackedDirs_eq_some_iff {paths : List (List CodePoint)}
    {dirs : Finset (List CodePoint)} :
    trackedDirs paths = some dirs ↔
      (∀ name ∈ paths, (PurePosixPath.ofStr name).parent.climb ≠ none) ∧
        ∀ d, d ∈ dirs ↔ ∃ name ∈ paths, d ∈ dirsAbove name := by
  have hclimb : ∀ (name : List CodePoint) ds, (PurePosixPath.ofStr name).parent.climb = some ds ↔
      (PurePosixPath.ofStr name).parent.climb ≠ none ∧ ds = (dirsAbove name).reverse := by
    intro name ds
    rw [PurePosixPath.climb_parent]
    split <;> simp [dirsAbove, eq_comm]
  rw [trackedDirs, Option.map_eq_some_iff]
  simp only [option_mapM_iff_map hclimb]
  have hmem : ∀ d, d ∈ (paths.map fun name ↦ (dirsAbove name).reverse).flatten.toFinset ↔
      ∃ name ∈ paths, d ∈ dirsAbove name := by
    intro d
    simp
  constructor
  · rintro ⟨-, ⟨hends, rfl⟩, rfl⟩
    exact ⟨hends, hmem⟩
  · rintro ⟨hends, hdirs⟩
    refine ⟨_, ⟨hends, rfl⟩, Finset.ext fun d ↦ ?_⟩
    rw [hmem, hdirs]

theorem trackedDirs_perm {paths paths' : List (List CodePoint)} (h : paths.Perm paths') :
    trackedDirs paths = trackedDirs paths' := by
  apply Option.ext
  intro dirs
  rw [trackedDirs_eq_some_iff, trackedDirs_eq_some_iff]
  simp only [h.mem_iff]

theorem Accepted.perm {t t' : Tree} {dirs : Finset (List CodePoint)} (h : Accepted t dirs)
    (hperm : t.entries.Perm t'.entries) : Accepted t' dirs where
  dirs_eq := (trackedDirs_perm (hperm.map _)).symm.trans h.dirs_eq
  allowed := h.allowed
  packable := fun e he ↦ h.packable e (hperm.mem_iff.mpr he)
  dirs_named := h.dirs_named
  files_named := fun e he ↦ h.files_named e (hperm.mem_iff.mpr he)

/-- Different members have different paths: only directories end in a slash. -/
theorem contents_paths_nodup (order : SetOrder) (t : Tree) (dirs : Finset (List CodePoint)) :
    ((contents order t dirs).map Member.path).Nodup := by
  rw [contents, List.map_append, List.map_map, List.map_map]
  have hfiles : t.entries.map (Member.path ∘ entryMember) = t.entries.map TrackedEntry.path := by
    apply List.map_congr_left
    exact fun e _ ↦ entryMember_path e
  rw [hfiles]
  apply List.Nodup.append
  · apply (order.nodup dirs).map
    intro d d' heq
    exact List.append_cancel_right heq
  · exact t.nodup
  · intro path hdir hfile
    obtain ⟨d, -, rfl⟩ := List.mem_map.mp hdir
    obtain ⟨e, he, hpath⟩ := List.mem_map.mp hfile
    apply t.files e he
    rw [hpath]
    simp [directoryMember]

theorem sortKey_injective {a b : Member} (ha : Named a) (hb : Named b)
    (h : sortKey a = sortKey b) : a.path = b.path := by
  apply encodeUtf8_injective ha.sortKey_eq
  rw [h]
  exact hb.sortKey_eq

theorem Accepted.named {order : SetOrder} {t : Tree} {dirs : Finset (List CodePoint)}
    (h : Accepted t dirs) : ∀ m ∈ contents order t dirs, Named m := by
  intro m hm
  rcases List.mem_append.mp hm with hm | hm
  · obtain ⟨d, hd, rfl⟩ := List.mem_map.mp hm
    exact h.dirs_named d ((order.mem_iff dirs d).mp hd)
  · obtain ⟨e, he, rfl⟩ := List.mem_map.mp hm
    exact h.files_named e he

theorem contents_eq_nil {order : SetOrder} {t : Tree} {dirs : Finset (List CodePoint)}
    (h : Accepted t dirs) (hnil : t.entries = []) : contents order t dirs = [] := by
  have hdirs : ∀ d, d ∉ order.list dirs := by
    intro d hd
    obtain ⟨name, hname, -⟩ :=
      ((trackedDirs_eq_some_iff.mp h.dirs_eq).2 d).mp ((order.mem_iff dirs d).mp hd)
    rw [hnil] at hname
    cases hname
  rw [contents, hnil, List.eq_nil_iff_forall_not_mem.mpr hdirs]
  rfl

theorem sortOn_contents_congr {order order' : SetOrder} {t t' : Tree}
    {dirs : Finset (List CodePoint)} (hperm : t.entries.Perm t'.entries)
    (hnamed : ∀ m ∈ contents order t dirs, Named m) :
    sortOn sortKey (contents order t dirs) = sortOn sortKey (contents order' t' dirs) := by
  apply sortOn_eq_of_perm
  · have hdirs : (order.list dirs).Perm (order'.list dirs) := by
      rw [List.perm_ext_iff_of_nodup (order.nodup dirs) (order'.nodup dirs)]
      intro d
      rw [order.mem_iff, order'.mem_iff]
    exact (hdirs.map _).append (hperm.map _)
  · intro a ha b hb hkey
    apply List.inj_on_of_nodup_map (contents_paths_nodup order t dirs) ha hb
    exact sortKey_injective (hnamed a ha) (hnamed b hb) hkey

theorem archiveTarBytes_congr {order order' : SetOrder} {t t' : Tree} {out : List UInt8}
    (hperm : t.entries.Perm t'.entries) (htime : t.entries ≠ [] → t.timestamp = t'.timestamp)
    (h : archiveTarBytes order t = some (.ok out)) :
    archiveTarBytes order' t' = some (.ok out) := by
  obtain ⟨dirs, haccepted, hout⟩ := archiveTarBytes_ok_iff.mp h
  apply archiveTarBytes_ok_iff.mpr
  refine ⟨dirs, haccepted.perm hperm, ?_⟩
  have hsort : sortOn sortKey (contents order t dirs) = sortOn sortKey (contents order' t' dirs) :=
    sortOn_contents_congr hperm haccepted.named
  rw [← hsort]
  by_cases hnil : t.entries = []
  · rw [contents_eq_nil haccepted hnil, sortOn_nil] at hout ⊢
    exact hout
  · rw [← htime hnil]
    exact hout

/-! ## What a reader recovers -/

theorem canonicalGzip_gunzip (crc32 : List UInt8 → ℕ) (data : List UInt8) :
    ∃ out, canonicalGzip crc32 data = some out ∧ gunzip crc32 out = some data := by
  obtain ⟨body, blocks, hbody, hinflate, hcarries⟩ := storedDeflate_carries data
  refine ⟨gzipHeader ++ body ++ gzipTrailer crc32 data, ?_, gunzip_eq hinflate hcarries.data_eq⟩
  simp only [canonicalGzip, packLE_mask, hbody]
  rfl

theorem archiveBytes_ok_iff {crc32 : List UInt8 → ℕ} {order : SetOrder} {t : Tree}
    {out : List UInt8} : archiveBytes crc32 order t = some (.ok out) ↔
      ∃ tar, archiveTarBytes order t = some (.ok tar) ∧ canonicalGzip crc32 tar = some out := by
  unfold archiveBytes
  split
  · next tar htar => simp [htar]
  · next failed hfailed =>
      constructor
      · intro h
        exact absurd h (hfailed out)
      · rintro ⟨tar, htar, -⟩
        exact absurd htar (hfailed tar)

theorem archiveBytes_congr {crc32 : List UInt8 → ℕ} {order order' : SetOrder} {t t' : Tree}
    {out : List UInt8} (hperm : t.entries.Perm t'.entries)
    (htime : t.entries ≠ [] → t.timestamp = t'.timestamp)
    (h : archiveBytes crc32 order t = some (.ok out)) :
    archiveBytes crc32 order' t' = some (.ok out) := by
  obtain ⟨tar, htar, hgzip⟩ := archiveBytes_ok_iff.mp h
  apply archiveBytes_ok_iff.mpr
  exact ⟨tar, archiveTarBytes_congr hperm htime htar, hgzip⟩

/-! ## A commit that can be archived -/

/-- Sets are iterated in the order of their code points. -/
def sortedOrder : SetOrder where
  list s := Quotient.liftOn s.val (sortOn (List.map CodePoint.val)) fun a b h ↦
    sortOn_eq_of_perm h fun x _ y _ hxy ↦ List.map_injective_iff.mpr
      (fun c c' hc ↦ by cases c; cases c'; simp_all) hxy
  nodup := by
    rintro ⟨⟨l⟩, hl⟩
    exact (sortOn_perm _ l).nodup_iff.mpr hl
  mem_iff := by
    rintro ⟨⟨l⟩, hl⟩ x
    exact mem_sortOn

theorem SetOrder.list_singleton (order : SetOrder) (d : List CodePoint) : order.list {d} = [d] := by
  apply List.perm_singleton.mp
  rw [List.perm_ext_iff_of_nodup (order.nodup _) (List.nodup_singleton d)]
  intro x
  rw [order.mem_iff, Finset.mem_singleton, List.mem_singleton]

/-- A commit whose members fit their headers can be archived. -/
theorem exists_archiveBytes (crc32 : List UInt8 → ℕ) {order : SetOrder} {t : Tree}
    {dirs : Finset (List CodePoint)} {members : List Member} (haccepted : Accepted t dirs)
    (hsorted : sortOn sortKey (contents order t dirs) = members)
    (hwrites : (serializeTar members t.timestamp).isOk = true) :
    ∃ out, archiveBytes crc32 order t = some (.ok out) := by
  cases htar : serializeTar members t.timestamp with
  | error e => simp [htar, Except.isOk, Except.toBool] at hwrites
  | ok tar =>
      obtain ⟨out, hout, -⟩ := canonicalGzip_gunzip crc32 tar
      refine ⟨out, archiveBytes_ok_iff.mpr ⟨tar, archiveTarBytes_ok_iff.mpr ⟨dirs, haccepted, ?_⟩,
        hout⟩⟩
      rw [hsorted]
      exact htar

def sampleEntry : TrackedEntry :=
  ⟨ofString "d/n", .regular, [104, 105]⟩

/-- A commit with one file in one directory. -/
def sampleTree (time : ℤ) : Tree where
  entries := [sampleEntry]
  timestamp := time
  nodup := List.nodup_singleton _
  files := by decide +kernel

theorem sampleTree_accepted (time : ℤ) : Accepted (sampleTree time) {ofString "d"} := by
  refine ⟨?_, by decide +kernel, ?_, ?_, ?_⟩
  · change trackedDirs [ofString "d/n"] = some {ofString "d"}
    decide +kernel
  · intro e he
    obtain rfl := List.mem_singleton.mp he
    exact ⟨by decide +kernel, by decide +kernel, Or.inl rfl⟩
  · intro d hd
    obtain rfl := Finset.mem_singleton.mp hd
    exact ⟨[100, 47], by decide +kernel⟩
  · intro e he
    obtain rfl := List.mem_singleton.mp he
    exact ⟨[100, 47, 110], by decide +kernel⟩

theorem sampleTree_packs (crc32 : List UInt8 → ℕ) (order : SetOrder) (time : ℤ)
    (hwrites : (serializeTar [directoryMember (ofString "d"), entryMember sampleEntry] time).isOk =
      true) : ∃ out, archiveBytes crc32 order (sampleTree time) = some (.ok out) := by
  apply exists_archiveBytes crc32 (sampleTree_accepted time) ?_ hwrites
  have hcontents : contents order (sampleTree time) {ofString "d"} =
      [directoryMember (ofString "d"), entryMember sampleEntry] := by
    rw [contents, order.list_singleton]
    rfl
  rw [hcontents]
  apply List.mergeSort_of_pairwise
  decide +kernel

/-! ## What is recovered -/

/-- Read the entries of a compressed archive. -/
def readArchive (crc32 : List UInt8 → ℕ) (bytes : List UInt8) : Option (List Entry) :=
  (gunzip crc32 bytes).bind readTar

theorem readArchive_eq {crc32 : List UInt8 → ℕ} {order : SetOrder} {t : Tree} {out : List UInt8}
    (h : archiveBytes crc32 order t = some (.ok out)) :
    ∃ dirs, Accepted t dirs ∧ readArchive crc32 out =
      some ((sortOn sortKey (contents order t dirs)).map (entryOf t.timestamp)) := by
  obtain ⟨tar, htar, hgzip⟩ := archiveBytes_ok_iff.mp h
  obtain ⟨dirs, haccepted, hserialize⟩ := archiveTarBytes_ok_iff.mp htar
  obtain ⟨out', hout', hgunzip⟩ := canonicalGzip_gunzip crc32 tar
  obtain rfl : out' = out := Option.some.inj (hout'.symm.trans hgzip)
  simp only [serializeTar, bind_ok_iff, pure_ok_iff] at hserialize
  obtain ⟨body, hbody, rfl⟩ := hserialize
  refine ⟨dirs, haccepted, ?_⟩
  rw [readArchive, hgunzip, Option.bind_some, readTar_serializeMembers hbody]

/-- What an archive of `t` has to hold. -/
structure Describes (t : Tree) (entries : List Entry) : Prop where
  mem_iff : ∀ x, x ∈ entries ↔
    (∃ e ∈ t.entries, x = entryOf t.timestamp (entryMember e)) ∨
      ∃ e ∈ t.entries, ∃ d ∈ dirsAbove e.path, x = entryOf t.timestamp (directoryMember d)
  encodes : ∀ x ∈ entries, encodeUtf8 x.path ≠ none
  increasing : entries.Pairwise fun x y ↦
    (encodeUtf8 x.path).getD [] < (encodeUtf8 y.path).getD []

theorem Accepted.describes {order : SetOrder} {t : Tree} {dirs : Finset (List CodePoint)}
    (h : Accepted t dirs) :
    Describes t ((sortOn sortKey (contents order t dirs)).map (entryOf t.timestamp)) := by
  have hnamed : ∀ m ∈ sortOn sortKey (contents order t dirs), Named m := by
    intro m hm
    exact h.named m (mem_sortOn.mp hm)
  have hdirs := (trackedDirs_eq_some_iff.mp h.dirs_eq).2
  refine ⟨fun x ↦ ?_, fun x hx ↦ ?_, ?_⟩
  · simp only [List.mem_map, mem_sortOn, contents, List.mem_append, order.mem_iff,
      hdirs]
    constructor
    · rintro ⟨m, ⟨d, ⟨-, ⟨e, he, rfl⟩, hd⟩, rfl⟩ | ⟨e, he, rfl⟩, rfl⟩
      · exact Or.inr ⟨e, he, d, hd, rfl⟩
      · exact Or.inl ⟨e, he, rfl⟩
    · rintro (⟨e, he, rfl⟩ | ⟨e, he, d, hd, rfl⟩)
      · exact ⟨_, Or.inr ⟨e, he, rfl⟩, rfl⟩
      · exact ⟨_, Or.inl ⟨d, ⟨_, ⟨e, he, rfl⟩, hd⟩, rfl⟩, rfl⟩
  · obtain ⟨m, hm, rfl⟩ := List.mem_map.mp hx
    change encodeUtf8 m.path ≠ none
    rw [(hnamed m hm).sortKey_eq]
    simp
  · rw [List.pairwise_map]
    have hnodup : (sortOn sortKey (contents order t dirs)).Pairwise fun a b ↦ a.path ≠ b.path := by
      rw [← List.pairwise_map (R := fun a b ↦ a ≠ b)]
      exact ((sortOn_perm sortKey _).map Member.path).nodup_iff.mpr (contents_paths_nodup order t dirs)
    have hle := (sortOn_pairwise sortKey (contents order t dirs)).and hnodup
    apply hle.imp_of_mem
    rintro a b ha hb ⟨hle, hpath⟩
    by_contra hlt
    exact hpath (sortKey_injective (hnamed a ha) (hnamed b hb) (List.le_antisymm hle hlt))

theorem entryMember_kind_ne (e : TrackedEntry) : (entryMember e).kind ≠ [53] := by
  unfold entryMember
  split <;> simp

/-- The entry of a tracked file shows everything that the commit says about it. -/
theorem entryOf_entryMember_injective {e e' : TrackedEntry} {time time' : ℤ} (hpack : Packable e)
    (hpack' : Packable e')
    (h : entryOf time (entryMember e) = entryOf time' (entryMember e')) :
    time = time' ∧ e = e' := by
  rw [entryOf, entryOf, Entry.mk.injEq] at h
  obtain ⟨hpath, hmode, -, -, htime, hkind, hlink, hdata⟩ := h
  refine ⟨htime, ?_⟩
  rw [entryMember_path, entryMember_path] at hpath
  obtain ⟨path, mode, blob⟩ := e
  obtain ⟨path', mode', blob'⟩ := e'
  rw [TrackedEntry.mk.injEq]
  refine ⟨hpath, ?_⟩
  rcases hpack.mode with rfl | rfl | ⟨rfl, -⟩ <;> rcases hpack'.mode with rfl | rfl | ⟨rfl, -⟩ <;>
    simp_all [entryMember, Member.payload]

theorem mem_of_readArchive_eq {t t' : Tree} {entries : List Entry} (hd : Describes t entries)
    (hd' : Describes t' entries) (hpack : ∀ e ∈ t.entries, Packable e)
    (hpack' : ∀ e ∈ t'.entries, Packable e) {e : TrackedEntry} (he : e ∈ t.entries) :
    t.timestamp = t'.timestamp ∧ e ∈ t'.entries := by
  have hmem : entryOf t.timestamp (entryMember e) ∈ entries :=
    (hd.mem_iff _).mpr (Or.inl ⟨e, he, rfl⟩)
  rcases (hd'.mem_iff _).mp hmem with ⟨e', he', heq⟩ | ⟨-, -, d, -, heq⟩
  · obtain ⟨htime, rfl⟩ := entryOf_entryMember_injective (hpack e he) (hpack' e' he') heq
    exact ⟨htime, he'⟩
  · exact absurd (congrArg Entry.kind heq) (entryMember_kind_ne e)

theorem commit_of_archiveBytes {crc32 : List UInt8 → ℕ} {order order' : SetOrder} {t t' : Tree}
    {out : List UInt8} (h : archiveBytes crc32 order t = some (.ok out))
    (h' : archiveBytes crc32 order' t' = some (.ok out)) :
    t.entries.Perm t'.entries ∧ (t.entries ≠ [] → t.timestamp = t'.timestamp) := by
  obtain ⟨dirs, haccepted, hread⟩ := readArchive_eq h
  obtain ⟨dirs', haccepted', hread'⟩ := readArchive_eq h'
  have heq := Option.some.inj (hread.symm.trans hread')
  have hd : Describes t ((sortOn sortKey (contents order t dirs)).map (entryOf t.timestamp)) :=
    haccepted.describes
  have hd' : Describes t'
      ((sortOn sortKey (contents order' t' dirs')).map (entryOf t'.timestamp)) :=
    haccepted'.describes
  rw [← heq] at hd'
  constructor
  · rw [List.perm_ext_iff_of_nodup (List.Nodup.of_map _ t.nodup) (List.Nodup.of_map _ t'.nodup)]
    intro e
    constructor
    · intro he
      exact (mem_of_readArchive_eq hd hd' haccepted.packable haccepted'.packable he).2
    · intro he
      exact (mem_of_readArchive_eq hd' hd haccepted'.packable haccepted.packable he).2
  · intro hne
    obtain ⟨e, he⟩ := List.exists_mem_of_ne_nil _ hne
    exact (mem_of_readArchive_eq hd hd' haccepted.packable haccepted'.packable he).1

/-- Two builds write the same bytes exactly when they track the same entries at
the same time, in whatever order Git lists them and the sets are iterated. -/
theorem archiveBytes_eq_iff {crc32 : List UInt8 → ℕ} {order : SetOrder} {t : Tree}
    {out : List UInt8} (h : archiveBytes crc32 order t = some (.ok out)) (order' : SetOrder)
    (t' : Tree) :
    archiveBytes crc32 order' t' = some (.ok out) ↔
      t.entries.Perm t'.entries ∧ (t.entries ≠ [] → t.timestamp = t'.timestamp) := by
  constructor
  · exact commit_of_archiveBytes h
  · rintro ⟨hperm, htime⟩
    exact archiveBytes_congr hperm htime h

/-- The same file at another time. -/
theorem archiveBytes_eq_iff_sample :
    ∃ out, archiveBytes (fun _ ↦ 0) sortedOrder (sampleTree 5) = some (.ok out) ∧
      archiveBytes (fun _ ↦ 0) sortedOrder (sampleTree 6) ≠
        some (.ok out) := by
  obtain ⟨out, hout⟩ := sampleTree_packs (fun _ ↦ 0) sortedOrder 5 (by decide +kernel)
  refine ⟨out, hout, fun hsame ↦ ?_⟩
  have htime := ((archiveBytes_eq_iff hout sortedOrder (sampleTree 6)).mp hsame).2
  exact absurd (htime (List.cons_ne_nil _ _)) (by decide)

/-! ## Directories come before what they hold -/

theorem Describes.before {t : Tree} {entries before after : List Entry} {x y : Entry}
    (h : Describes t entries) (hsplit : entries = before ++ x :: after) (hy : y ∈ entries)
    (hpre : y.path <+: x.path) (hne : y ≠ x) : y ∈ before := by
  have hx : x ∈ entries := by
    rw [hsplit]
    exact List.mem_append_right _ List.mem_cons_self
  -- the encoding of a prefix is a prefix of the encoding
  have hle : (encodeUtf8 y.path).getD [] ≤ (encodeUtf8 x.path).getD [] := by
    obtain ⟨rest, hrest⟩ := hpre
    obtain ⟨raw, hraw⟩ := Option.ne_none_iff_exists'.mp (h.encodes x hx)
    obtain ⟨b, b', hb, -, rfl⟩ := encodeUtf8_append_eq_some (hrest ▸ hraw)
    rw [hraw, hb]
    exact List.le_append_left
  have hincreasing := h.increasing
  rw [hsplit, List.pairwise_append, List.pairwise_cons] at hincreasing
  rw [hsplit] at hy
  rcases List.mem_append.mp hy with hy | hy
  · exact hy
  · rcases List.mem_cons.mp hy with rfl | hy
    · exact absurd rfl hne
    · exact absurd (hincreasing.2.1.1 y hy) hle

/-- In the order of the archive no file precedes a directory above it, and no
directory one that is above it in turn. -/
theorem readArchive_parents_first {crc32 : List UInt8 → ℕ} {order : SetOrder} {t : Tree}
    {out : List UInt8} (h : archiveBytes crc32 order t = some (.ok out)) :
    ∃ entries, readArchive crc32 out = some entries ∧
      (∀ before x after, entries = before ++ x :: after →
        ∀ y ∈ entries, y.path <+: x.path → y ≠ x → y ∈ before) ∧
      ∀ e ∈ t.entries, PurePosixPath.Normal e.path → ∀ d ∈ dirsAbove e.path,
        ∃ before after, entries = before ++ entryOf t.timestamp (entryMember e) :: after ∧
          entryOf t.timestamp (directoryMember d) ∈ before := by
  obtain ⟨dirs, haccepted, hread⟩ := readArchive_eq h
  have hdescribes : Describes t
      ((sortOn sortKey (contents order t dirs)).map (entryOf t.timestamp)) :=
    haccepted.describes
  refine ⟨_, hread, ?_, ?_⟩
  · intro before x after hsplit y hy hpre hne
    exact hdescribes.before hsplit hy hpre hne
  · intro e he hnormal d hd
    have hmem := (hdescribes.mem_iff _).mpr (Or.inl ⟨e, he, rfl⟩)
    have hdir := (hdescribes.mem_iff _).mpr (Or.inr ⟨e, he, d, hd, rfl⟩)
    obtain ⟨before, after, hsplit⟩ := List.append_of_mem hmem
    refine ⟨before, after, hsplit, hdescribes.before hsplit hdir ?_ ?_⟩
    · obtain ⟨rest, -, hrest⟩ := hnormal.extends_ancestor hd
      refine ⟨rest, ?_⟩
      change d ++ [sep] ++ rest = (entryMember e).path
      rw [entryMember_path, hrest, List.append_assoc]
      rfl
    · intro heq
      exact entryMember_kind_ne e (congrArg Entry.kind heq).symm

theorem readArchive_parents_first_sample :
    ∃ out before after, archiveBytes (fun _ ↦ 0) sortedOrder (sampleTree 5) = some (.ok out) ∧
      readArchive (fun _ ↦ 0) out =
        some (before ++ entryOf 5 (entryMember sampleEntry) :: after) ∧
      entryOf 5 (directoryMember (ofString "d")) ∈ before := by
  obtain ⟨out, hout⟩ := sampleTree_packs (fun _ ↦ 0) sortedOrder 5 (by decide +kernel)
  obtain ⟨entries, hread, -, hparents⟩ := readArchive_parents_first hout
  obtain ⟨before, after, rfl, hmem⟩ := hparents sampleEntry (List.mem_singleton.mpr rfl)
    ⟨by decide +kernel, by decide +kernel⟩ (ofString "d") (by decide +kernel)
  exact ⟨out, before, after, hout, hread, hmem⟩

end Henret.Archive
