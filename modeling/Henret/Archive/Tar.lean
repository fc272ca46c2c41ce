import Henret.Lib.Numerals
import Henret.Lib.Outcome
import Henret.Lib.PyStr
import Henret.Lib.Slices

/-!
# The canonical ustar serializer

`serializeTar` writes each member as a 512-byte header and its padded payload,
and two zero blocks at the end.  Every value that does not fit its field
raises, so the reader below recovers exactly the members that went in.
-/

namespace Henret.Archive

open Numerals Outcome PyStr Slices

def tarBlock : ℕ := 512

/-- What an error message calls the value it rejects. -/
inductive Label where
  | archivePath
  | archivePrefix
  | archiveName
  | name
  | mode
  | uid
  | gid
  | size
  | mtime
  | typeflag
  | linkname
  | magic
  | version
  | deviceMajor
  | deviceMinor
  | pathPrefix
deriving DecidableEq, Repr

/-- The `ValueError`s of the serializer, with what their messages quote. -/
inductive TarError where
  | notUtf8 (label : Label) (value : List CodePoint)
  | emptyOrNul (label : Label) (value : List CodePoint)
  | negative (label : Label) (value : ℤ)
  | fieldOverflow (label : Label) (value : ℤ)
  | pathOverflow (path : List CodePoint)
  | typeflag (kind : List UInt8)
  | unexpectedLink (path : List CodePoint)
  | linkOverflow (path : List CodePoint)
  | fieldWidth (label : Label)
  | checksumOverflow (path : List CodePoint)
deriving DecidableEq, Repr

def canonicalUtf8 (value : List CodePoint) (label : Label) : Except TarError (List UInt8) :=
  match encodeUtf8 value with
  | none => .error (.notUtf8 label value)
  | some encoded =>
      if encoded = [] ∨ 0 ∈ encoded then .error (.emptyOrNul label value) else .ok encoded

def octalField (value : ℤ) (width : ℕ) (label : Label) : Except TarError (List UInt8) :=
  if value < 0 then .error (.negative label value)
  else
    let encoded := octal (width - 1) value.toNat
    if width ≤ encoded.length then .error (.fieldOverflow label value) else .ok (encoded ++ [0])

def slash : CodePoint := ⟨47, by norm_num⟩

/-- The positions of slashes that are neither the first nor the last character. -/
def splits (path : List CodePoint) : List ℕ :=
  (List.range path.length).filter fun i ↦
    path[i]? = some slash ∧ i ≠ 0 ∧ i ≠ path.length - 1

/-- The first of the candidate splits whose parts fit their fields. -/
def trySplits (path : List CodePoint) : List ℕ → Except TarError (List UInt8 × List UInt8)
  | [] => .error (.pathOverflow path)
  | split :: rest => do
      let pre ← canonicalUtf8 (path.take split) .archivePrefix
      let name ← canonicalUtf8 (path.drop (split + 1)) .archiveName
      if pre.length ≤ 155 ∧ name.length ≤ 100 then return (name, pre) else trySplits path rest

def ustarName (path : List CodePoint) : Except TarError (List UInt8 × List UInt8) := do
  let raw ← canonicalUtf8 path .archivePath
  if raw.length ≤ 100 then return (raw, []) else trySplits path (splits path).reverse

def put (header : List UInt8) (start width : ℕ) (value : List UInt8) (label : Label) :
    Except TarError (List UInt8) :=
  if width < value.length then .error (.fieldWidth label)
  else .ok (setSlice header start (start + value.length) value)

def putOctal (header : List UInt8) (start width : ℕ) (value : ℤ) (label : Label) :
    Except TarError (List UInt8) := do
  let encoded ← octalField value width label
  put header start width encoded label

def tarHeader (path : List CodePoint) (mode size mtime : ℤ) (kind link : List UInt8) :
    Except TarError (List UInt8) := do
  let (name, pre) ← ustarName path
  raiseIf (kind ≠ [48] ∧ kind ≠ [50] ∧ kind ≠ [53]) (.typeflag kind)
  raiseIf (kind ≠ [50] ∧ link ≠ []) (.unexpectedLink path)
  raiseIf (100 < link.length ∨ 0 ∈ link) (.linkOverflow path)
  let header ← put (List.replicate tarBlock 0) 0 100 name .name
  let header ← putOctal header 100 8 mode .mode
  let header ← putOctal header 108 8 0 .uid
  let header ← putOctal header 116 8 0 .gid
  let header ← putOctal header 124 12 size .size
  let header ← putOctal header 136 12 mtime .mtime
  let header := setSlice header 148 156 (List.replicate 8 32)
  let header ← put header 156 1 kind .typeflag
  let header ← put header 157 100 link .linkname
  let header ← put header 257 6 [117, 115, 116, 97, 114, 0] .magic
  let header ← put header 263 2 [48, 48] .version
  let header ← putOctal header 329 8 0 .deviceMajor
  let header ← putOctal header 337 8 0 .deviceMinor
  let header ← put header 345 155 pre .pathPrefix
  let checksum := (header.map UInt8.toNat).sum
  raiseIf (0o777777 < checksum) (.checksumOverflow path)
  return setSlice header 148 156 (octal 6 checksum ++ [0, 32])

/-- A member; `data` and `link` default to empty. -/
structure Member where
  path : List CodePoint
  mode : ℤ
  kind : List UInt8
  data : List UInt8 := []
  link : List UInt8 := []
deriving DecidableEq, Repr

/-- Only regular files carry a payload. -/
def Member.payload (m : Member) : List UInt8 :=
  if m.kind = [48] then m.data else []

/-- `-n % TAR_BLOCK`. -/
def padding (n : ℕ) : ℕ :=
  (tarBlock - n % tarBlock) % tarBlock

def serializeMembers (mtime : ℤ) : List Member → Except TarError (List UInt8)
  | [] => return []
  | m :: ms => do
      let header ← tarHeader m.path m.mode m.payload.length mtime m.kind m.link
      let rest ← serializeMembers mtime ms
      return header ++ m.payload ++ List.replicate (padding m.payload.length) 0 ++ rest

def serializeTar (members : List Member) (mtime : ℤ) : Except TarError (List UInt8) := do
  let out ← serializeMembers mtime members
  return out ++ List.replicate (2 * tarBlock) 0

/-! ## The reader -/

structure Entry where
  path : List CodePoint
  mode : ℤ
  uid : ℤ
  gid : ℤ
  mtime : ℤ
  kind : List UInt8
  link : List UInt8
  data : List UInt8
deriving DecidableEq, Repr

def readString (block : List UInt8) (start width : ℕ) : List UInt8 :=
  (slice block start width).takeWhile fun b ↦ b ≠ 0

def readNumber (block : List UInt8) (start width : ℕ) : Option ℤ :=
  (readOctal (slice block start width)).map Nat.cast

/-- The path bytes of a name and a possibly empty prefix. -/
def joinName (name pre : List UInt8) : List UInt8 :=
  if pre = [] then name else pre ++ 47 :: name

/-- The checksum field counts as spaces in the sum it records. -/
def checksumVerifies (block : List UInt8) : Prop :=
  readOctal (slice block 148 8) =
    some ((setSlice block 148 156 (List.replicate 8 32)).map UInt8.toNat).sum

instance (block : List UInt8) : Decidable (checksumVerifies block) :=
  inferInstanceAs (Decidable (_ = _))

/-- Read a header block: its entry, still without data, and the payload size. -/
def readHeader (block : List UInt8) : Option (Entry × ℕ) := do
  guard (checksumVerifies block ∧ slice block 257 6 = [117, 115, 116, 97, 114, 0])
  let path ← decodeUtf8 (joinName (readString block 0 100) (readString block 345 155))
  let mode ← readNumber block 100 8
  let uid ← readNumber block 108 8
  let gid ← readNumber block 116 8
  let size ← readOctal (slice block 124 12)
  let mtime ← readNumber block 136 12
  return (⟨path, mode, uid, gid, mtime, slice block 156 1, readString block 157 100, []⟩, size)

/-- Read entries up to the two zero blocks that end the archive. -/
def readTar (bytes : List UInt8) : Option (List Entry) :=
  if bytes.take (2 * tarBlock) = List.replicate (2 * tarBlock) 0 then
    if bytes.length = 2 * tarBlock then some [] else none
  else
    match readHeader (bytes.take tarBlock) with
    | none => none
    | some (entry, size) =>
        if tarBlock + size + padding size ≤ bytes.length then
          (readTar (bytes.drop (tarBlock + size + padding size))).map
            ({ entry with data := (bytes.drop tarBlock).take size } :: ·)
        else none
termination_by bytes.length
decreasing_by
  simp only [List.length_drop]
  unfold tarBlock at *
  omega

/-- The entry that a reader must recover from a member. -/
def entryOf (mtime : ℤ) (m : Member) : Entry :=
  ⟨m.path, m.mode, 0, 0, mtime, m.kind, m.link, m.payload⟩

end Henret.Archive
