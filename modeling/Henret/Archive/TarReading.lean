import Henret.Archive.Tar

/-!
# Reading back a canonical archive

What each step of the serializer guarantees when it does not raise, and from
it that the reader recovers every member.
-/

namespace Henret.Archive

open Numerals Outcome PyStr Slices

theorem canonicalUtf8_ok_iff {value : List CodePoint} {label : Label} {raw : List UInt8} :
    canonicalUtf8 value label = .ok raw ↔ encodeUtf8 value = some raw ∧ raw ≠ [] ∧ 0 ∉ raw := by
  unfold canonicalUtf8
  cases encodeUtf8 value with
  | none => simp
  | some encoded =>
      by_cases hbad : encoded = [] ∨ 0 ∈ encoded
      · simp only [hbad, if_true, reduceCtorEq, Option.some.injEq, false_iff]
        rintro ⟨rfl, hne, hnul⟩
        exact hbad.elim hne hnul
      · rw [not_or] at hbad
        simp only [hbad.1, hbad.2, or_self, if_false, Except.ok.injEq, Option.some.injEq]
        exact ⟨fun h ↦ ⟨h, h ▸ hbad⟩, fun h ↦ h.1⟩

theorem octalField_ok {value : ℤ} {width : ℕ} {label : Label} {field : List UInt8}
    (h : octalField value width label = .ok field) :
    0 ≤ value ∧ field = octal (width - 1) value.toNat ++ [0] ∧ field.length = width := by
  unfold octalField at h
  split at h
  · simp at h
  · rename_i hneg
    dsimp only at h
    split at h
    · simp at h
    · rename_i hfits
      obtain rfl := Except.ok.inj h
      have hlen := length_octal (width - 1) value.toNat
      refine ⟨by omega, rfl, ?_⟩
      rw [List.length_append, List.length_singleton]
      omega

/-- A numeric field reads back as the value it was written from. -/
theorem readOctal_octalField {value : ℤ} {width : ℕ} {label : Label} {field : List UInt8}
    (h : octalField value width label = .ok field) : readOctal field = some value.toNat := by
  obtain ⟨-, rfl, -⟩ := octalField_ok h
  exact readOctal_octal _ _ [0] (by simp)

theorem put_ok_iff {header value out : List UInt8} {start width : ℕ} {label : Label} :
    put header start width value label = .ok out ↔
      value.length ≤ width ∧ setSlice header start (start + value.length) value = out := by
  unfold put
  split
  · simp only [reduceCtorEq, false_iff, not_and]
    omega
  · simp only [Except.ok.injEq]
    exact ⟨fun h ↦ ⟨by omega, h⟩, fun h ↦ h.2⟩

theorem putOctal_ok_iff {header out : List UInt8} {start width : ℕ} {value : ℤ} {label : Label} :
    putOctal header start width value label = .ok out ↔
      ∃ field, octalField value width label = .ok field ∧ field.length ≤ width ∧
        setSlice header start (start + field.length) field = out := by
  simp only [putOctal, bind_ok_iff, put_ok_iff]

/-! ## Names -/

theorem encodeUtf8_slash : encodeUtf8 [slash] = some [47] := by decide

theorem split_at_slash {path : List CodePoint} {i : ℕ} (hi : path[i]? = some slash) :
    path = path.take i ++ ([slash] ++ path.drop (i + 1)) :=
  eq_take_cons_drop hi

/-- What a split that fits writes. -/
theorem encodeUtf8_split {path : List CodePoint} {i : ℕ} (hi : path[i]? = some slash)
    {pre name : List UInt8} (hpre : encodeUtf8 (path.take i) = some pre)
    (hname : encodeUtf8 (path.drop (i + 1)) = some name) :
    encodeUtf8 path = some (pre ++ 47 :: name) := by
  rw [split_at_slash hi, encodeUtf8_append, encodeUtf8_append, hpre, hname, encodeUtf8_slash]
  rfl

theorem mem_splits {path : List CodePoint} {i : ℕ} :
    i ∈ splits path ↔ path[i]? = some slash ∧ i ≠ 0 ∧ i ≠ path.length - 1 := by
  rw [splits, List.mem_filter, List.mem_range]
  refine ⟨fun h ↦ by simpa using h.2, fun h ↦ ⟨?_, by simpa using h⟩⟩
  exact (List.getElem?_eq_some_iff.mp h.1).1

/-- The two parts of a split that the fields can store. -/
structure SplitFits (path : List CodePoint) (i : ℕ) (name pre : List UInt8) : Prop where
  pre_eq : encodeUtf8 (path.take i) = some pre
  name_eq : encodeUtf8 (path.drop (i + 1)) = some name
  pre_length : pre.length ≤ 155
  name_length : name.length ≤ 100

theorem trySplits_ok {path : List CodePoint} {candidates : List ℕ} {name pre : List UInt8}
    (h : trySplits path candidates = .ok (name, pre)) :
    ∃ i ∈ candidates, SplitFits path i name pre ∧ (pre ≠ [] ∧ 0 ∉ pre) ∧ name ≠ [] ∧ 0 ∉ name := by
  induction candidates with
  | nil => simp [trySplits] at h
  | cons i rest ih =>
      simp only [trySplits, bind_ok_iff, canonicalUtf8_ok_iff] at h
      obtain ⟨pre', ⟨hpre, hpre'⟩, name', ⟨hname, hname'⟩, hbranch⟩ := h
      split at hbranch
      · rename_i hfits
        obtain ⟨rfl, rfl⟩ := Prod.mk.inj (Except.ok.inj hbranch)
        exact ⟨i, by simp, ⟨hpre, hname, hfits.1, hfits.2⟩, hpre', hname'⟩
      · obtain ⟨i', hi', hrest⟩ := ih hbranch
        exact ⟨i', by simp [hi'], hrest⟩

/-- What is stored for a path: bounded strings without NUL that join to its encoding. -/
structure Stores (path : List CodePoint) (name pre : List UInt8) : Prop where
  joins : encodeUtf8 path = some (joinName name pre)
  name_length : name.length ≤ 100
  pre_length : pre.length ≤ 155
  name_nonempty : name ≠ []
  name_nul : 0 ∉ name
  pre_nul : 0 ∉ pre

theorem ustarName_ok {path : List CodePoint} {name pre : List UInt8}
    (h : ustarName path = .ok (name, pre)) : Stores path name pre := by
  simp only [ustarName, bind_ok_iff, canonicalUtf8_ok_iff] at h
  obtain ⟨raw, ⟨hraw, hne, hnul⟩, hbranch⟩ := h
  split at hbranch
  · rename_i hle
    obtain ⟨rfl, rfl⟩ := Prod.mk.inj (Except.ok.inj hbranch)
    exact ⟨by simpa [joinName] using hraw, hle, by simp, hne, hnul, by simp⟩
  · obtain ⟨i, hi, hfits, ⟨hpre, hprenul⟩, hname, hnamenul⟩ := trySplits_ok hbranch
    have hslash := (mem_splits.mp (List.mem_reverse.mp hi)).1
    refine ⟨?_, hfits.name_length, hfits.pre_length, hname, hnamenul, hprenul⟩
    rw [joinName, if_neg hpre]
    exact encodeUtf8_split hslash hfits.pre_eq hfits.name_eq

/-- The fields of a header, as the bytes written at their starts. -/
structure Fields where
  name : List UInt8
  mode : List UInt8
  uid : List UInt8
  gid : List UInt8
  size : List UInt8
  mtime : List UInt8
  kind : List UInt8
  link : List UInt8
  major : List UInt8
  minor : List UInt8
  pre : List UInt8

namespace Fields

def writes (f : Fields) : List (ℕ × List UInt8) :=
  [(0, f.name), (100, f.mode), (108, f.uid), (116, f.gid), (124, f.size), (136, f.mtime),
    (148, List.replicate 8 32), (156, f.kind), (157, f.link),
    (257, [117, 115, 116, 97, 114, 0]), (263, [48, 48]), (329, f.major), (337, f.minor),
    (345, f.pre)]

/-- The header before its checksum is filled in. -/
def block (f : Fields) : List UInt8 :=
  writeAll (List.replicate tarBlock 0) f.writes

def checksum (f : Fields) : ℕ :=
  (f.block.map UInt8.toNat).sum

def sealed (f : Fields) : List UInt8 :=
  setSlice f.block 148 156 (octal 6 f.checksum ++ [0, 32])

/-- Every value fits its field; the numeric ones fill it. -/
structure Bounded (f : Fields) : Prop where
  name : f.name.length ≤ 100
  mode : f.mode.length = 8
  uid : f.uid.length = 8
  gid : f.gid.length = 8
  size : f.size.length = 12
  mtime : f.mtime.length = 12
  kind : f.kind.length = 1
  link : f.link.length ≤ 100
  major : f.major.length = 8
  minor : f.minor.length = 8
  pre : f.pre.length ≤ 155

end Fields

theorem tarHeader_ok {path : List CodePoint} {mode size mtime : ℤ} {kind link header : List UInt8}
    (h : tarHeader path mode size mtime kind link = .ok header) :
    ∃ f : Fields, header = f.sealed ∧ f.Bounded ∧ Stores path f.name f.pre ∧
      octalField mode 8 .mode = .ok f.mode ∧ octalField 0 8 .uid = .ok f.uid ∧
      octalField 0 8 .gid = .ok f.gid ∧ octalField size 12 .size = .ok f.size ∧
      octalField mtime 12 .mtime = .ok f.mtime ∧ f.kind = kind ∧ f.link = link ∧ 0 ∉ link := by
  simp only [tarHeader, bind_ok_iff, raiseIf_ok_iff, put_ok_iff, putOctal_ok_iff, pure_ok_iff] at h
  obtain ⟨⟨name, pre⟩, hname, -, hkind, -, -, -, hlink, -, ⟨hnamelen, rfl⟩, -,
    ⟨mode', hmode, -, rfl⟩, -, ⟨uid, huid, -, rfl⟩, -, ⟨gid, hgid, -, rfl⟩, -,
    ⟨size', hsize, -, rfl⟩, -, ⟨mtime', hmtime, -, rfl⟩, -, ⟨-, rfl⟩, -, ⟨hlinklen, rfl⟩, -,
    ⟨-, rfl⟩, -, ⟨-, rfl⟩, -, ⟨major, hmajor, -, rfl⟩, -, ⟨minor, hminor, -, rfl⟩, -,
    ⟨hprelen, rfl⟩, -, -, rfl⟩ := h
  rw [not_or] at hlink
  have hkindlen : kind.length = 1 := by
    by_contra hne
    refine hkind ⟨?_, ?_, ?_⟩ <;> (rintro rfl; exact hne rfl)
  refine ⟨⟨name, mode', uid, gid, size', mtime', kind, link, major, minor, pre⟩, rfl,
    ⟨hnamelen, (octalField_ok hmode).2.2, (octalField_ok huid).2.2, (octalField_ok hgid).2.2,
      (octalField_ok hsize).2.2, (octalField_ok hmtime).2.2, hkindlen, hlinklen,
      (octalField_ok hmajor).2.2, (octalField_ok hminor).2.2, hprelen⟩,
    ustarName_ok hname, hmode, huid, hgid, hsize, hmtime, rfl, rfl, hlink.2⟩

def headerLayout : List (ℕ × ℕ) :=
  [(0, 100), (100, 8), (108, 8), (116, 8), (124, 12), (136, 12), (148, 8), (156, 1), (157, 100),
    (257, 6), (263, 2), (329, 8), (337, 8), (345, 155)]

namespace Fields

variable {f : Fields}

theorem Bounded.fills (hb : f.Bounded) : Fills headerLayout f.writes := by
  simp [Fills, headerLayout, writes, hb.name, hb.mode, hb.uid, hb.gid, hb.size, hb.mtime, hb.kind,
    hb.link, hb.major, hb.minor, hb.pre]

theorem Bounded.length_block (hb : f.Bounded) : f.block.length = tarBlock := by
  have hfits : Fits (List.replicate tarBlock (0 : UInt8)).length f.writes := by
    rw [List.length_replicate]
    exact hb.fills.fits (by decide)
  rw [block, length_writeAll hfits, List.length_replicate]

theorem slice_block (hb : f.Bounded) {k start width : ℕ} {v : List UInt8}
    (hw : f.writes[k]? = some (start, v)) (hr : headerLayout[k]? = some (start, width)) :
    slice f.block start width = v ++ List.replicate (width - v.length) 0 :=
  slice_writeAll_of_fills (by decide) (by decide) hb.fills hw hr

/-- A byte sum fits the six octal digits of the checksum field. -/
theorem Bounded.checksum_lt (hb : f.Bounded) : f.checksum < 8 ^ 6 := by
  have hsum : ∀ l : List UInt8, (l.map UInt8.toNat).sum ≤ 255 * l.length := by
    intro l
    induction l with
    | nil => simp
    | cons b bs ih =>
        have hlt := b.toNat_lt
        simp only [List.map_cons, List.sum_cons, List.length_cons]
        omega
  have hle := hsum f.block
  rw [hb.length_block] at hle
  unfold checksum tarBlock at *
  omega

theorem Bounded.length_checksum (hb : f.Bounded) :
    148 + (octal 6 f.checksum ++ [0, 32]).length = 156 := by
  rw [List.length_append, length_octal_of_lt (by norm_num) hb.checksum_lt]
  rfl

/-- Filling in the checksum leaves the other fields alone. -/
theorem slice_sealed (hb : f.Bounded) {k start width : ℕ} {v : List UInt8}
    (hw : f.writes[k]? = some (start, v)) (hr : headerLayout[k]? = some (start, width))
    (hother : start + width ≤ 148 ∨ 156 ≤ start) :
    slice f.sealed start width = v ++ List.replicate (width - v.length) 0 := by
  rw [sealed, slice_setSlice_of_disjoint hb.length_checksum _ hother, slice_block hb hw hr]
  rw [hb.length_block]
  decide

/-- A field that its value fills reads as that value. -/
theorem slice_sealed_full (hb : f.Bounded) {k start width : ℕ} {v : List UInt8}
    (hw : f.writes[k]? = some (start, v)) (hr : headerLayout[k]? = some (start, width))
    (hother : start + width ≤ 148 ∨ 156 ≤ start) (hv : v.length = width) :
    slice f.sealed start width = v := by
  rw [slice_sealed hb hw hr hother, hv, Nat.sub_self, List.replicate_zero, List.append_nil]

theorem length_sealed (hb : f.Bounded) : f.sealed.length = tarBlock := by
  rw [sealed, length_setSlice hb.length_checksum, hb.length_block]
  rw [hb.length_block]
  decide

/-- The recorded checksum is the sum over the block with spaces in its place. -/
theorem sealed_verifies (hb : f.Bounded) : checksumVerifies f.sealed := by
  have hlen := hb.length_block
  have hin : 156 ≤ f.block.length := by
    rw [hlen]
    decide
  have hfield : slice f.sealed 148 8 = octal 6 f.checksum ++ [0, 32] := by
    have hwidth : (octal 6 f.checksum ++ [0, 32]).length = 8 :=
      Nat.add_left_cancel hb.length_checksum
    rw [sealed, slice_setSlice_self hb.length_checksum hin hwidth.le, hwidth]
    simp [slice]
  have hspaces : setSlice f.sealed 148 156 (List.replicate 8 32) = f.block := by
    have hslice : slice f.block 148 8 = List.replicate 8 32 :=
      slice_block (k := 6) hb rfl rfl
    rw [sealed, setSlice_setSlice hb.length_checksum hin, ← hslice]
    exact setSlice_slice (by norm_num)
  rw [checksumVerifies, hfield, hspaces, readOctal_octal 6 f.checksum [0, 32] (by simp)]
  rfl

theorem readString_sealed (hb : f.Bounded) {k start width : ℕ} {v : List UInt8}
    (hw : f.writes[k]? = some (start, v)) (hr : headerLayout[k]? = some (start, width))
    (hother : start + width ≤ 148 ∨ 156 ≤ start) (hnul : 0 ∉ v) :
    readString f.sealed start width = v := by
  rw [readString, slice_sealed hb hw hr hother, takeWhile_padded hnul]

theorem readOctal_sealed (hb : f.Bounded) {k start width : ℕ} {v : List UInt8} {value : ℤ}
    {label : Label} (hw : f.writes[k]? = some (start, v))
    (hr : headerLayout[k]? = some (start, width)) (hother : start + width ≤ 148 ∨ 156 ≤ start)
    (hv : octalField value width label = .ok v) :
    readOctal (slice f.sealed start width) = some value.toNat := by
  rw [slice_sealed_full hb hw hr hother (octalField_ok hv).2.2, readOctal_octalField hv]

theorem readNumber_sealed (hb : f.Bounded) {k start width : ℕ} {v : List UInt8} {value : ℤ}
    {label : Label} (hw : f.writes[k]? = some (start, v))
    (hr : headerLayout[k]? = some (start, width)) (hother : start + width ≤ 148 ∨ 156 ≤ start)
    (hv : octalField value width label = .ok v) :
    readNumber f.sealed start width = some value := by
  rw [readNumber, readOctal_sealed hb hw hr hother hv]
  simp [(octalField_ok hv).1]

end Fields

/-- A header that the serializer writes reads back as what it was written from. -/
theorem readHeader_tarHeader {path : List CodePoint} {mode mtime : ℤ} {size : ℕ}
    {kind link header : List UInt8}
    (h : tarHeader path mode size mtime kind link = .ok header) :
    readHeader header = some (⟨path, mode, 0, 0, mtime, kind, link, []⟩, size) := by
  obtain ⟨f, hheader, hb, hstores, hmode, huid, hgid, hsize, hmtime, hfkind, hflink, hlink⟩ :=
    tarHeader_ok h
  clear h
  have hmagic : slice header 257 6 = [117, 115, 116, 97, 114, 0] := by
    rw [hheader]
    exact f.slice_sealed_full (k := 9) hb rfl rfl (by norm_num) rfl
  have hkind' : slice header 156 1 = kind := by
    rw [hheader, f.slice_sealed_full (k := 7) hb rfl rfl (by norm_num) hb.kind, hfkind]
  have hpath : decodeUtf8 (joinName (readString header 0 100) (readString header 345 155)) =
      some path := by
    rw [hheader, f.readString_sealed (k := 0) hb rfl rfl (by norm_num) hstores.name_nul,
      f.readString_sealed (k := 13) hb rfl rfl (by norm_num) hstores.pre_nul]
    exact decodeUtf8_encodeUtf8 hstores.joins
  have hlink' : readString header 157 100 = link := by
    rw [hheader, f.readString_sealed (k := 8) hb rfl rfl (by norm_num) (hflink ▸ hlink), hflink]
  have hmode' : readNumber header 100 8 = some mode := by
    rw [hheader, f.readNumber_sealed (k := 1) hb rfl rfl (by norm_num) hmode]
  have huid' : readNumber header 108 8 = some 0 := by
    rw [hheader, f.readNumber_sealed (k := 2) hb rfl rfl (by norm_num) huid]
  have hgid' : readNumber header 116 8 = some 0 := by
    rw [hheader, f.readNumber_sealed (k := 3) hb rfl rfl (by norm_num) hgid]
  have hsize' : readOctal (slice header 124 12) = some size := by
    rw [hheader, f.readOctal_sealed (k := 4) hb rfl rfl (by norm_num) hsize, Int.toNat_natCast]
  have hmtime' : readNumber header 136 12 = some mtime := by
    rw [hheader, f.readNumber_sealed (k := 5) hb rfl rfl (by norm_num) hmtime]
  have hverifies : checksumVerifies header := hheader ▸ Fields.sealed_verifies hb
  simp only [readHeader, guard, hverifies, hmagic, hpath, hmode', huid', hgid', hsize', hmtime',
    hkind', hlink', and_self, if_true, Option.pure_def, Option.bind_eq_bind, Option.bind_some]

theorem length_tarHeader {path : List CodePoint} {mode size mtime : ℤ}
    {kind link header : List UInt8} (h : tarHeader path mode size mtime kind link = .ok header) :
    header.length = tarBlock := by
  obtain ⟨f, hheader, hb, -⟩ := tarHeader_ok h
  rw [hheader, Fields.length_sealed hb]

/-- A header is not a zero block: its name is not empty. -/
theorem tarHeader_ne_zeros {path : List CodePoint} {mode size mtime : ℤ}
    {kind link header rest : List UInt8}
    (h : tarHeader path mode size mtime kind link = .ok header) :
    (header ++ rest).take (2 * tarBlock) ≠ List.replicate (2 * tarBlock) 0 := by
  obtain ⟨f, hheader, hb, hstores, -⟩ := tarHeader_ok h
  have hlen := length_tarHeader h
  clear h
  intro hzeros
  have hzero : header = List.replicate tarBlock 0 := by
    have htake := congrArg (List.take tarBlock) hzeros
    rwa [List.take_take, List.take_replicate, Nat.min_eq_left (by decide), List.take_left' hlen]
      at htake
  have hname : slice header 0 100 = f.name ++ List.replicate (100 - f.name.length) 0 := by
    rw [hheader]
    exact f.slice_sealed (k := 0) hb rfl rfl (by norm_num)
  rw [hzero, slice_replicate (by decide)] at hname
  obtain ⟨b, bs, hcons⟩ := List.exists_cons_of_ne_nil hstores.name_nonempty
  have hmem : b ∈ List.replicate 100 (0 : UInt8) := by
    rw [hname, hcons]
    simp
  apply hstores.name_nul
  rw [hcons, ← List.eq_of_mem_replicate hmem]
  exact List.mem_cons_self

/-! ## Archives -/

theorem serializeMembers_cons_ok {mtime : ℤ} {m : Member} {ms : List Member} {out : List UInt8}
    (h : serializeMembers mtime (m :: ms) = .ok out) :
    ∃ header rest, tarHeader m.path m.mode m.payload.length mtime m.kind m.link = .ok header ∧
      serializeMembers mtime ms = .ok rest ∧
      out = header ++ m.payload ++ List.replicate (padding m.payload.length) 0 ++ rest := by
  simp only [serializeMembers, bind_ok_iff, pure_ok_iff] at h
  obtain ⟨header, hheader, rest, hrest, rfl⟩ := h
  exact ⟨header, rest, hheader, hrest, rfl⟩

theorem readTar_end : readTar (List.replicate (2 * tarBlock) 0) = some [] := by
  rw [readTar, if_pos (by simp), if_pos (by simp)]

/-- Reading one member off the front of an archive. -/
theorem readTar_member {mtime : ℤ} {m : Member} {header rest : List UInt8}
    (h : tarHeader m.path m.mode m.payload.length mtime m.kind m.link = .ok header) :
    readTar (header ++ m.payload ++ List.replicate (padding m.payload.length) 0 ++ rest) =
      (readTar rest).map (entryOf mtime m :: ·) := by
  have hlen := length_tarHeader h
  have hread := readHeader_tarHeader h
  have htake : (header ++ (m.payload ++ (List.replicate (padding m.payload.length) 0 ++ rest))).take
      tarBlock = header := List.take_left' hlen
  have hdrop : (header ++ (m.payload ++ (List.replicate (padding m.payload.length) 0 ++ rest))).drop
      tarBlock = m.payload ++ (List.replicate (padding m.payload.length) 0 ++ rest) :=
    List.drop_left' hlen
  have hskip : (header ++ (m.payload ++ (List.replicate (padding m.payload.length) 0 ++ rest))).drop
      (tarBlock + m.payload.length + padding m.payload.length) = rest := by
    rw [← List.append_assoc, ← List.append_assoc]
    apply List.drop_left'
    simp only [List.length_append, List.length_replicate, hlen]
  have hfits : tarBlock + m.payload.length + padding m.payload.length ≤
      (header ++ (m.payload ++ (List.replicate (padding m.payload.length) 0 ++ rest))).length := by
    simp only [List.length_append, List.length_replicate, hlen]
    omega
  rw [List.append_assoc, List.append_assoc, readTar, if_neg (tarHeader_ne_zeros h), htake, hread]
  simp only [if_pos hfits, hskip, hdrop, List.take_left' rfl]
  rfl

theorem readTar_serializeMembers {mtime : ℤ} {members : List Member} {out : List UInt8}
    (h : serializeMembers mtime members = .ok out) :
    readTar (out ++ List.replicate (2 * tarBlock) 0) = some (members.map (entryOf mtime)) := by
  induction members generalizing out with
  | nil =>
      obtain rfl : [] = out := Except.ok.inj h
      exact readTar_end
  | cons m ms ih =>
      obtain ⟨header, rest, hheader, hrest, rfl⟩ := serializeMembers_cons_ok h
      rw [List.append_assoc _ rest, readTar_member hheader, ih hrest]
      rfl

end Henret.Archive
