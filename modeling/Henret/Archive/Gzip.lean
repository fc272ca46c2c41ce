import Henret.Lib.Numerals

/-!
# The canonical gzip container

The archive is compressed with stored DEFLATE blocks only.  A reader of the
format recovers the data from what `canonicalGzip` writes, for every length.
-/

namespace Henret.Archive

open Numerals

def deflateBlock : ℕ := 65535

def gzipHeader : List UInt8 :=
  [0x1f, 0x8b, 0x08, 0x00, 0x00, 0x00, 0x00, 0x00, 0x00, 0xff]

/-- `struct.pack` of one unsigned little-endian integer; an integer that does
not fit raises. -/
def packLE (width n : ℕ) : Option (List UInt8) :=
  if n < 256 ^ width then some (littleEndian width n) else none

/-- The stored block that the loop writes for the data at `offset`. -/
def storedBlock (data : List UInt8) (offset : ℕ) : Option (List UInt8) := do
  let block := (data.drop offset).take deflateBlock
  let final := offset + block.length = data.length
  let len ← packLE 2 block.length
  let nlen ← packLE 2 (0xffff ^^^ block.length)
  return (if final then [1] else [0]) ++ len ++ nlen ++ block

/-- `range(0, length, DEFLATE_BLOCK)`. -/
def blockOffsets (length : ℕ) : List ℕ :=
  List.range' 0 ((length + (deflateBlock - 1)) / deflateBlock) deflateBlock

def storedDeflate (data : List UInt8) : Option (List UInt8) :=
  if data = [] then some [0x01, 0x00, 0x00, 0xff, 0xff]
  else ((blockOffsets data.length).mapM (storedBlock data)).map List.flatten

/-- `crc32` stands for `binascii.crc32`. -/
def canonicalGzip (crc32 : List UInt8 → ℕ) (data : List UInt8) : Option (List UInt8) := do
  let crc ← packLE 4 (crc32 data &&& 0xffffffff)
  let size ← packLE 4 (data.length &&& 0xffffffff)
  let body ← storedDeflate data
  return gzipHeader ++ body ++ (crc ++ size)

/-! ## The reader -/

structure StoredBlock where
  final : Bool
  len : ℕ
  nlen : ℕ
  data : List UInt8
deriving DecidableEq, Repr

/-- Read one stored block: a header byte with the final bit and block type 0,
the length, its complement and the data. -/
def readBlock : List UInt8 → Option (StoredBlock × List UInt8)
  | h :: l₀ :: l₁ :: n₀ :: n₁ :: rest =>
      let len := ofLittleEndian [l₀, l₁]
      let nlen := ofLittleEndian [n₀, n₁]
      if h.toNat / 2 % 4 = 0 ∧ BitVec.ofNat 16 nlen = ~~~ BitVec.ofNat 16 len ∧
          len ≤ rest.length then
        some (⟨h.toNat % 2 = 1, len, nlen, rest.take len⟩, rest.drop len)
      else none
  | _ => none

theorem readBlock_length {bytes rest : List UInt8} {b : StoredBlock}
    (h : readBlock bytes = some (b, rest)) : rest.length < bytes.length := by
  unfold readBlock at h
  split at h
  · dsimp only at h
    split at h
    · obtain ⟨-, rfl⟩ := Prod.mk.inj (Option.some.inj h)
      simp only [List.length_drop, List.length_cons]
      omega
    · simp at h
  · simp at h

/-- Read blocks up to the first one with the final bit. -/
def inflate (bytes : List UInt8) : Option (List StoredBlock × List UInt8) :=
  match _h : readBlock bytes with
  | none => none
  | some (b, rest) =>
      if b.final then some ([b], rest)
      else (inflate rest).map fun x ↦ (b :: x.1, x.2)
termination_by bytes.length
decreasing_by exact readBlock_length _h

/-- Read a whole gzip member with no extra header fields and nothing behind it. -/
def gunzip (crc32 : List UInt8 → ℕ) (bytes : List UInt8) : Option (List UInt8) := do
  guard (bytes.take 10 = gzipHeader)
  let (blocks, trailer) ← inflate (bytes.drop 10)
  let data := blocks.flatMap StoredBlock.data
  guard (trailer.length = 8 ∧ ofLittleEndian (trailer.take 4) = crc32 data % 2 ^ 32 ∧
    ofLittleEndian (trailer.drop 4) = data.length % 2 ^ 32)
  return data

/-! ## What the writer produces -/

theorem packLE_of_lt {width n : ℕ} (h : n < 256 ^ width) :
    packLE width n = some (littleEndian width n) :=
  if_pos h

theorem packLE_mask (n : ℕ) :
    packLE 4 (n &&& 0xffffffff) = some (littleEndian 4 (n % 2 ^ 32)) := by
  have hmask : n &&& 0xffffffff = n % 2 ^ 32 := Nat.and_two_pow_sub_one_eq_mod n 32
  rw [hmask, packLE_of_lt (by norm_num; omega)]

theorem xor_lt {n : ℕ} (h : n ≤ deflateBlock) : 0xffff ^^^ n < 256 ^ 2 :=
  Nat.xor_lt_two_pow (n := 16) (by norm_num) (by unfold deflateBlock at h; omega)

theorem complement_xor (n : ℕ) :
    BitVec.ofNat 16 (0xffff ^^^ n) = ~~~ BitVec.ofNat 16 n := by
  rw [BitVec.not_def, BitVec.ofNat_xor, BitVec.xor_comm]
  rw [BitVec.xor_comm]
  rfl

/-- The bytes of a block of `n ≤ 65535` data bytes. -/
def blockBytes (final : Bool) (block : List UInt8) : List UInt8 :=
  (if final then [1] else [0]) ++ littleEndian 2 block.length ++
    littleEndian 2 (0xffff ^^^ block.length) ++ block

def blockOf (final : Bool) (block : List UInt8) : StoredBlock :=
  ⟨final, block.length, 0xffff ^^^ block.length, block⟩

theorem storedBlock_eq (data : List UInt8) (offset : ℕ) :
    storedBlock data offset =
      some (blockBytes (offset + ((data.drop offset).take deflateBlock).length = data.length)
        ((data.drop offset).take deflateBlock)) := by
  have hle : ((data.drop offset).take deflateBlock).length ≤ deflateBlock :=
    List.length_take_le _ _
  have hlt : ((data.drop offset).take deflateBlock).length < 256 ^ 2 := by
    unfold deflateBlock at hle ⊢
    omega
  simp only [storedBlock, packLE_of_lt hlt, packLE_of_lt (xor_lt hle), blockBytes]
  simp

theorem readBlock_blockBytes (final : Bool) (block rest : List UInt8)
    (hle : block.length ≤ deflateBlock) :
    readBlock (blockBytes final block ++ rest) = some (blockOf final block, rest) := by
  have hlt : block.length < 256 ^ 2 := by
    unfold deflateBlock at hle
    omega
  have hlen := ofLittleEndian_of_lt hlt
  have hnlen := ofLittleEndian_of_lt (xor_lt hle)
  simp only [littleEndian] at hlen hnlen
  have hcomplement := complement_xor block.length
  rw [BitVec.ofNat_xor] at hcomplement
  cases final <;>
    simp [blockBytes, littleEndian, readBlock, hlen, hnlen, hcomplement, blockOf]

theorem inflate_final (block rest : List UInt8) (hle : block.length ≤ deflateBlock) :
    inflate (blockBytes true block ++ rest) = some ([blockOf true block], rest) := by
  rw [inflate]
  split
  · rename_i hread
    simp [readBlock_blockBytes true block rest hle] at hread
  · rename_i b rest' hread
    rw [readBlock_blockBytes true block rest hle, Option.some.injEq, Prod.mk.injEq] at hread
    obtain ⟨rfl, rfl⟩ := hread
    rfl

theorem inflate_more (block rest : List UInt8) (hle : block.length ≤ deflateBlock) :
    inflate (blockBytes false block ++ rest) =
      (inflate rest).map fun x ↦ (blockOf false block :: x.1, x.2) := by
  rw [inflate]
  split
  · rename_i hread
    simp [readBlock_blockBytes false block rest hle] at hread
  · rename_i b rest' hread
    rw [readBlock_blockBytes false block rest hle, Option.some.injEq, Prod.mk.injEq] at hread
    obtain ⟨rfl, rfl⟩ := hread
    rfl

/-- Blocks that carry `data`: each is well formed, and exactly the last is final. -/
structure Carries (blocks : List StoredBlock) (data : List UInt8) : Prop where
  data_eq : blocks.flatMap StoredBlock.data = data
  well_formed : ∀ b ∈ blocks, b.len = b.data.length ∧ b.data.length ≤ deflateBlock ∧
    BitVec.ofNat 16 b.nlen = ~~~ BitVec.ofNat 16 b.len
  last_final : ∃ first last, blocks = first ++ [last] ∧ last.final = true ∧
    ∀ b ∈ first, b.final = false

theorem carries_single {block : List UInt8} (hle : block.length ≤ deflateBlock) :
    Carries [blockOf true block] block := by
  refine ⟨by simp [blockOf], fun b hb ↦ ?_, [], blockOf true block, rfl, rfl, by simp⟩
  obtain rfl := List.mem_singleton.mp hb
  exact ⟨rfl, hle, complement_xor _⟩

theorem Carries.cons {blocks : List StoredBlock} {block data : List UInt8}
    (h : Carries blocks data) (hle : block.length ≤ deflateBlock) :
    Carries (blockOf false block :: blocks) (block ++ data) := by
  obtain ⟨first, last, hsplit, hlast, hfirst⟩ := h.last_final
  refine ⟨by simp [blockOf, h.data_eq], fun b hb ↦ ?_, blockOf false block :: first, last,
    by rw [hsplit, List.cons_append], hlast, fun b hb ↦ ?_⟩
  · rcases List.mem_cons.mp hb with rfl | hb
    · exact ⟨rfl, hle, complement_xor _⟩
    · exact h.well_formed b hb
  · rcases List.mem_cons.mp hb with rfl | hb
    · rfl
    · exact hfirst b hb

/-- The blocks written from `offset` on carry the data from there on. -/
theorem inflate_offsets (data : List UInt8) (n offset : ℕ)
    (hlow : offset + n * deflateBlock < data.length)
    (hhigh : data.length ≤ offset + (n + 1) * deflateBlock) :
    ∃ outs blocks,
      (List.range' offset (n + 1) deflateBlock).mapM (storedBlock data) = some outs ∧
        (∀ trailer, inflate (outs.flatten ++ trailer) = some (blocks, trailer)) ∧
        Carries blocks (data.drop offset) := by
  induction n generalizing offset with
  | zero =>
      have hrest : (data.drop offset).length ≤ deflateBlock := by
        simp only [List.length_drop]
        omega
      have htake : (data.drop offset).take deflateBlock = data.drop offset :=
        List.take_of_length_le hrest
      have hfinal : offset + (data.drop offset).length = data.length := by
        simp only [List.length_drop]
        omega
      refine ⟨[blockBytes true (data.drop offset)], [blockOf true (data.drop offset)], ?_,
        fun trailer ↦ ?_, carries_single hrest⟩
      · rw [List.range'_one, List.mapM_cons, storedBlock_eq, htake, decide_eq_true hfinal]
        rfl
      · simpa using inflate_final (data.drop offset) trailer hrest
  | succ n ih =>
      obtain ⟨outs, blocks, hmap, hinflate, hcarries⟩ :=
        ih (offset + deflateBlock) (by rw [Nat.succ_mul] at hlow; omega)
          (by rw [Nat.succ_mul] at hhigh; omega)
      have hlen : ((data.drop offset).take deflateBlock).length = deflateBlock := by
        simp only [List.length_take, List.length_drop]
        rw [Nat.succ_mul] at hlow
        omega
      have hmore : ¬ offset + deflateBlock = data.length := by
        rw [Nat.succ_mul] at hlow
        omega
      refine ⟨blockBytes false ((data.drop offset).take deflateBlock) :: outs,
        blockOf false ((data.drop offset).take deflateBlock) :: blocks, ?_, fun trailer ↦ ?_, ?_⟩
      · rw [List.range'_succ, List.mapM_cons, storedBlock_eq, hlen, hmap]
        simp [hmore]
      · rw [List.flatten_cons, List.append_assoc, inflate_more _ _ hlen.le, hinflate]
        rfl
      · have hsplit : (data.drop offset).take deflateBlock ++ data.drop (offset + deflateBlock) =
            data.drop offset := by
          rw [← List.drop_drop, List.take_append_drop]
        have hcons := hcarries.cons hlen.le
        rwa [hsplit] at hcons

/-- `stored_deflate` never fails, and its blocks carry the data for every length. -/
theorem storedDeflate_carries (data : List UInt8) :
    ∃ body blocks, storedDeflate data = some body ∧
      (∀ trailer, inflate (body ++ trailer) = some (blocks, trailer)) ∧ Carries blocks data := by
  by_cases hdata : data = []
  · subst hdata
    refine ⟨blockBytes true [], [blockOf true []], by rfl, fun trailer ↦ ?_,
      carries_single (Nat.zero_le _)⟩
    exact inflate_final [] trailer (Nat.zero_le _)
  · have hpos : 0 < data.length := List.length_pos_of_ne_nil hdata
    obtain ⟨n, hn⟩ : ∃ n, (data.length + (deflateBlock - 1)) / deflateBlock = n + 1 := by
      refine Nat.exists_eq_succ_of_ne_zero (Nat.div_pos ?_ (by decide)).ne'
      omega
    have hbounds : 0 + n * deflateBlock < data.length ∧
        data.length ≤ 0 + (n + 1) * deflateBlock := by
      unfold deflateBlock at hn ⊢
      omega
    obtain ⟨outs, blocks, hmap, hinflate, hcarries⟩ :=
      inflate_offsets data n 0 hbounds.1 hbounds.2
    refine ⟨outs.flatten, blocks, ?_, hinflate, by simpa using hcarries⟩
    rw [storedDeflate, if_neg hdata, blockOffsets, hn, hmap]
    rfl

/-- The checksum and the length behind the blocks. -/
def gzipTrailer (crc32 : List UInt8 → ℕ) (data : List UInt8) : List UInt8 :=
  littleEndian 4 (crc32 data % 2 ^ 32) ++ littleEndian 4 (data.length % 2 ^ 32)

theorem gunzip_eq {crc32 : List UInt8 → ℕ} {data body : List UInt8} {blocks : List StoredBlock}
    (hinflate : ∀ trailer, inflate (body ++ trailer) = some (blocks, trailer))
    (hdata : blocks.flatMap StoredBlock.data = data) :
    gunzip crc32 (gzipHeader ++ body ++ gzipTrailer crc32 data) = some data := by
  have htake : (gzipHeader ++ body ++ gzipTrailer crc32 data).take 10 = gzipHeader := rfl
  have hdrop : (gzipHeader ++ body ++ gzipTrailer crc32 data).drop 10 =
      body ++ gzipTrailer crc32 data := rfl
  have hlow : ∀ n, n % 2 ^ 32 < 256 ^ 4 := fun n ↦ Nat.mod_lt n (by norm_num)
  have hlen : (gzipTrailer crc32 data).length = 8 := by simp [gzipTrailer]
  have hcrc : ofLittleEndian ((gzipTrailer crc32 data).take 4) = crc32 data % 2 ^ 32 := by
    rw [gzipTrailer, List.take_left' (by simp), ofLittleEndian_of_lt (hlow _)]
  have hsize : ofLittleEndian ((gzipTrailer crc32 data).drop 4) = data.length % 2 ^ 32 := by
    rw [gzipTrailer, List.drop_left' (by simp), ofLittleEndian_of_lt (hlow _)]
  simp only [gunzip, htake, hdrop, hinflate, hdata, hlen, hcrc, hsize, guard, and_self, if_true,
    Option.pure_def, Option.bind_eq_bind, Option.bind_some]

/-- The container is the fixed header, blocks that inflate to exactly the data,
and the checksum and length; nothing follows them, and a reader recovers the
data, so different data have different containers. -/
theorem canonicalGzip_roundtrip (crc32 : List UInt8 → ℕ) :
    (∀ data, ∃ body blocks,
      canonicalGzip crc32 data = some (gzipHeader ++ body ++ gzipTrailer crc32 data) ∧
      (∀ trailer, inflate (body ++ trailer) = some (blocks, trailer)) ∧
      Carries blocks data ∧
      (canonicalGzip crc32 data).bind (gunzip crc32) = some data) ∧
      ∀ data data', canonicalGzip crc32 data = canonicalGzip crc32 data' → data = data' := by
  have hround : ∀ data, ∃ body blocks,
      canonicalGzip crc32 data = some (gzipHeader ++ body ++ gzipTrailer crc32 data) ∧
      (∀ trailer, inflate (body ++ trailer) = some (blocks, trailer)) ∧
      Carries blocks data ∧
      (canonicalGzip crc32 data).bind (gunzip crc32) = some data := by
    intro data
    obtain ⟨body, blocks, hbody, hinflate, hcarries⟩ := storedDeflate_carries data
    have hwrite : canonicalGzip crc32 data =
        some (gzipHeader ++ body ++ gzipTrailer crc32 data) := by
      simp only [canonicalGzip, packLE_mask, hbody]
      rfl
    refine ⟨body, blocks, hwrite, hinflate, hcarries, ?_⟩
    rw [hwrite]
    exact gunzip_eq hinflate hcarries.data_eq
  refine ⟨hround, fun data data' heq ↦ ?_⟩
  obtain ⟨-, -, -, -, -, hread⟩ := hround data
  obtain ⟨-, -, -, -, -, hread'⟩ := hround data'
  rw [heq, hread', Option.some.injEq] at hread
  exact hread.symm

end Henret.Archive
