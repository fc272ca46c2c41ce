import Mathlib

/-!
# Python strings and their UTF-8 encoding

A Python string is a sequence of code points, lone surrogates included.  Only
strings without surrogates have a UTF-8 encoding; decoding inverts it.
-/

namespace PyStr

structure CodePoint where
  val : ℕ
  lt : val < 0x110000
deriving DecidableEq, Repr

instance : LawfulBEq (List CodePoint) := inferInstance

/-- The scalar value of a code point; a surrogate has none. -/
def CodePoint.toChar? (c : CodePoint) : Option Char :=
  if h : c.val.isValidChar then some (Char.ofNatAux c.val h) else none

def CodePoint.ofChar (c : Char) : CodePoint where
  val := c.toNat
  lt := by
    have hvalid := c.valid
    change c.toNat.isValidChar at hvalid
    unfold Nat.isValidChar at hvalid
    omega

/-- A string literal. -/
def ofString (s : String) : List CodePoint :=
  s.toList.map CodePoint.ofChar

theorem CodePoint.ofChar_of_toChar? {c : CodePoint} {ch : Char} (h : c.toChar? = some ch) :
    CodePoint.ofChar ch = c := by
  unfold CodePoint.toChar? at h
  split at h
  · rename_i hvalid
    obtain rfl := Option.some.inj h
    simp [CodePoint.ofChar, Char.toNat_ofNatAux]
  · simp at h

theorem CodePoint.toChar?_ofChar (ch : Char) : (CodePoint.ofChar ch).toChar? = some ch := by
  have hvalid : (CodePoint.ofChar ch).val.isValidChar := ch.valid
  rw [CodePoint.toChar?, dif_pos hvalid, Option.some.injEq]
  apply Char.ext
  apply UInt32.toNat_inj.mp
  simp [CodePoint.ofChar]

/-- `value.encode("utf-8")`; `none` is `UnicodeEncodeError`. -/
def encodeUtf8 (s : List CodePoint) : Option (List UInt8) :=
  (s.mapM CodePoint.toChar?).map fun cs ↦ cs.flatMap String.utf8EncodeChar

def decodeUtf8 (bs : List UInt8) : Option (List CodePoint) :=
  bs.toByteArray.utf8Decode?.map fun cs ↦ cs.toList.map CodePoint.ofChar

theorem map_ofChar_of_mapM {s : List CodePoint} {cs : List Char}
    (h : s.mapM CodePoint.toChar? = some cs) : cs.map CodePoint.ofChar = s := by
  induction s generalizing cs with
  | nil => simp_all
  | cons c s ih =>
      simp only [List.mapM_cons, Option.bind_eq_bind, Option.bind_eq_some_iff, Option.pure_def,
        Option.some.injEq] at h
      obtain ⟨ch, hch, cs', hcs', rfl⟩ := h
      rw [List.map_cons, CodePoint.ofChar_of_toChar? hch, ih hcs']

theorem decodeUtf8_encodeUtf8 {s : List CodePoint} {bs : List UInt8}
    (h : encodeUtf8 s = some bs) : decodeUtf8 bs = some s := by
  obtain ⟨cs, hcs, rfl⟩ := Option.map_eq_some_iff.mp h
  have hdecode : (cs.flatMap String.utf8EncodeChar).toByteArray.utf8Decode? = some cs.toArray :=
    List.utf8Decode?_utf8Encode
  rw [decodeUtf8, hdecode]
  simp [map_ofChar_of_mapM hcs]

theorem mapM_toChar?_ofChar (cs : List Char) :
    (cs.map CodePoint.ofChar).mapM CodePoint.toChar? = some cs := by
  induction cs with
  | nil => rfl
  | cons ch cs ih =>
      rw [List.map_cons, List.mapM_cons, CodePoint.toChar?_ofChar, ih]
      rfl

theorem encodeUtf8_decodeUtf8 {bs : List UInt8} {s : List CodePoint} (h : decodeUtf8 bs = some s) :
    encodeUtf8 s = some bs := by
  obtain ⟨cs, hcs, rfl⟩ := Option.map_eq_some_iff.mp h
  have hget : bs.toByteArray.utf8Decode?.get (by rw [hcs]; rfl) = cs := by simp [hcs]
  have hbytes : cs.toList.utf8Encode = bs.toByteArray := by
    rw [← hget]
    exact ByteArray.utf8Encode_get_utf8Decode?
  rw [encodeUtf8, mapM_toChar?_ofChar, Option.map_some, Option.some.injEq]
  have hlists := congrArg (fun b ↦ b.data.toList) hbytes
  simpa [List.utf8Encode] using hlists

theorem encodeUtf8_injective {s s' : List CodePoint} {bs : List UInt8}
    (h : encodeUtf8 s = some bs) (h' : encodeUtf8 s' = some bs) : s = s' :=
  Option.some.inj ((decodeUtf8_encodeUtf8 h).symm.trans (decodeUtf8_encodeUtf8 h'))

theorem encodeUtf8_append (s s' : List CodePoint) :
    encodeUtf8 (s ++ s') = (encodeUtf8 s).bind fun bs ↦ (encodeUtf8 s').map (bs ++ ·) := by
  unfold encodeUtf8
  rw [List.mapM_append]
  cases s.mapM CodePoint.toChar? <;> cases s'.mapM CodePoint.toChar? <;> simp

theorem encodeUtf8_append_eq_some {s s' : List CodePoint} {bs : List UInt8}
    (h : encodeUtf8 (s ++ s') = some bs) :
    ∃ b b', encodeUtf8 s = some b ∧ encodeUtf8 s' = some b' ∧ bs = b ++ b' := by
  rw [encodeUtf8_append, Option.bind_eq_some_iff] at h
  obtain ⟨b, hb, hmap⟩ := h
  obtain ⟨b', hb', rfl⟩ := Option.map_eq_some_iff.mp hmap
  exact ⟨b, b', hb, hb', rfl⟩

/-- Only the empty string has an empty encoding. -/
theorem eq_nil_of_encodeUtf8 {s : List CodePoint} (h : encodeUtf8 s = some []) : s = [] :=
  encodeUtf8_injective h rfl

end PyStr
