import Mathlib

/-!
# Numerals in byte fields

Zero-padded octal numerals and little-endian integers as byte lists, with the
readers that invert them.
-/

namespace Numerals

/-! ## Octal -/

def asciiByte (c : Char) : UInt8 :=
  UInt8.ofNat c.toNat

/-- The numeral of `n` in base 8, padded with zeros to at least `width` digits. -/
def octal (width n : ℕ) : List UInt8 :=
  ((Nat.toDigits 8 n).leftpad width '0').map asciiByte

def isOctalDigit (b : UInt8) : Bool :=
  48 ≤ b && b ≤ 55

/-- Read octal digits up to a terminator of NULs and spaces. -/
def readOctal (bs : List UInt8) : Option ℕ :=
  let digits := bs.takeWhile isOctalDigit
  let rest := bs.dropWhile isOctalDigit
  if digits ≠ [] ∧ ∀ b ∈ rest, b = 0 ∨ b = 32 then
    some (digits.foldl (fun n b ↦ 8 * n + (b.toNat - 48)) 0)
  else none

/-- The characters of an octal numeral. -/
def octalChars : List Char :=
  ['0', '1', '2', '3', '4', '5', '6', '7']

theorem mem_octalChars_of_mem_toDigits (n : ℕ) : ∀ c ∈ Nat.toDigits 8 n, c ∈ octalChars := by
  induction n using Nat.strong_induction_on with
  | _ n ih =>
      intro c hc
      have hdigit : ∀ d, d < 8 → Nat.digitChar d ∈ octalChars := by decide
      by_cases hn : n < 8
      · rw [Nat.toDigits_of_lt_base hn, List.mem_singleton] at hc
        exact hc ▸ hdigit n hn
      · rw [Nat.toDigits_of_base_le (by omega) (by omega), List.mem_append,
          List.mem_singleton] at hc
        rcases hc with hc | rfl
        · exact ih (n / 8) (by omega) c hc
        · exact hdigit _ (Nat.mod_lt n (by omega))

theorem mem_octalChars_of_mem_padded {width n : ℕ} {c : Char}
    (hc : c ∈ (Nat.toDigits 8 n).leftpad width '0') : c ∈ octalChars := by
  rw [List.leftpad, List.mem_append] at hc
  rcases hc with hc | hc
  · rw [List.eq_of_mem_replicate hc]
    decide
  · exact mem_octalChars_of_mem_toDigits n c hc

theorem isOctalDigit_of_mem {width n : ℕ} {b : UInt8} (hb : b ∈ octal width n) :
    isOctalDigit b = true := by
  obtain ⟨c, hc, rfl⟩ := List.mem_map.mp hb
  have hall : ∀ c ∈ octalChars, isOctalDigit (asciiByte c) = true := by
    simp [octalChars, isOctalDigit, asciiByte]
  exact hall c (mem_octalChars_of_mem_padded hc)

theorem length_octal (width n : ℕ) :
    (octal width n).length = max width (Nat.toDigits 8 n).length := by
  simp only [octal, List.leftpad, List.length_map, List.length_append, List.length_replicate]
  omega

theorem octal_ne_nil (width n : ℕ) : octal width n ≠ [] := by
  have hpos : 0 < (Nat.toDigits 8 n).length := Nat.length_toDigits_pos
  intro h
  have hlen := length_octal width n
  rw [h, List.length_nil] at hlen
  omega

/-- A numeral of the field's width is not padded beyond it. -/
theorem length_octal_of_lt {width n : ℕ} (hpos : 0 < width) (h : n < 8 ^ width) :
    (octal width n).length = width := by
  rw [length_octal, max_eq_left]
  exact (Nat.length_toDigits_le_iff (by omega) hpos).mpr h

theorem foldl_asciiByte (cs : List Char) (hcs : ∀ c ∈ cs, c ∈ octalChars) (init : ℕ) :
    (cs.map asciiByte).foldl (fun n b ↦ 8 * n + (b.toNat - 48)) init =
      Nat.ofDigitChars 8 cs init := by
  have hval : ∀ c ∈ octalChars, (asciiByte c).toNat = c.toNat := by
    simp [octalChars, asciiByte]
  induction cs generalizing init with
  | nil => simp
  | cons c cs ih =>
      rw [List.map_cons, List.foldl_cons, Nat.ofDigitChars_cons, ih (fun d hd ↦ hcs d (by simp [hd])),
        hval c (hcs c (by simp))]
      rfl

theorem readOctal_octal (width n : ℕ) (tail : List UInt8) (htail : ∀ b ∈ tail, b = 0 ∨ b = 32) :
    readOctal (octal width n ++ tail) = some n := by
  have hdigits : ∀ b ∈ octal width n, isOctalDigit b = true := fun b hb ↦ isOctalDigit_of_mem hb
  have hnone : ∀ b ∈ tail, isOctalDigit b = false := by
    intro b hb
    rcases htail b hb with rfl | rfl <;> decide
  have htake : (octal width n ++ tail).takeWhile isOctalDigit = octal width n := by
    rw [List.takeWhile_append_of_pos hdigits]
    cases tail with
    | nil => simp
    | cons b bs => simp [hnone b (by simp)]
  have hdrop : (octal width n ++ tail).dropWhile isOctalDigit = tail := by
    rw [List.dropWhile_append_of_pos hdigits]
    cases tail with
    | nil => simp
    | cons b bs => simp [hnone b (by simp)]
  rw [readOctal, htake, hdrop, if_pos ⟨octal_ne_nil width n, htail⟩, octal,
    foldl_asciiByte _ fun c hc ↦ mem_octalChars_of_mem_padded hc, List.leftpad,
    Nat.ofDigitChars_append, Nat.ofDigitChars_replicate_zero, Nat.mul_zero,
    Nat.ofDigitChars_toDigits (by omega) (by omega)]

/-! ## Little-endian -/

/-- The `width` low bytes of `n`, least significant first. -/
def littleEndian : ℕ → ℕ → List UInt8
  | 0, _ => []
  | width + 1, n => UInt8.ofNat (n % 256) :: littleEndian width (n / 256)

def ofLittleEndian : List UInt8 → ℕ
  | [] => 0
  | b :: bs => b.toNat + 256 * ofLittleEndian bs

@[simp] theorem length_littleEndian (width n : ℕ) : (littleEndian width n).length = width := by
  induction width generalizing n with
  | zero => rfl
  | succ width ih => simp [littleEndian, ih]

theorem ofLittleEndian_littleEndian (width n : ℕ) :
    ofLittleEndian (littleEndian width n) = n % 256 ^ width := by
  induction width generalizing n with
  | zero => simp [littleEndian, ofLittleEndian, Nat.mod_one]
  | succ width ih =>
      rw [littleEndian, ofLittleEndian, ih, Nat.pow_succ, Nat.mul_comm (256 ^ width),
        Nat.mod_mul, UInt8.toNat_ofNat', Nat.mod_mod_of_dvd _ (by norm_num)]

theorem ofLittleEndian_of_lt {width n : ℕ} (h : n < 256 ^ width) :
    ofLittleEndian (littleEndian width n) = n := by
  rw [ofLittleEndian_littleEndian, Nat.mod_eq_of_lt h]

end Numerals
