import Henret.Lib.PyJson

/-!
# Looking up, ordering and printing JSON values

Subscripts and comparisons may raise, so a sort by a computed key may too.  The
printed text is that of `json.dumps` with sorted keys.
-/

namespace PyJson

open PyStr

variable {α : Type}

/-- `fields[key]`. -/
def Fields.item (fields : Fields) (key : Str) : Except Raised Json :=
  match fields.lookup key with
  | some x => .ok x
  | none => .error .keyError

/-- `x[key]`. -/
def Json.item (key : Str) : Json → Except Raised Json
  | .obj fields => Fields.item fields key
  | _ => .error .typeError

/-! ## Order -/

/-- NaN is below nothing and above nothing. -/
def PyFloat.less : PyFloat → PyFloat → Bool
  | .finite p, .finite q => decide (p < q)
  | .inf negative, .inf negative' => negative && !negative'
  | .inf negative, .finite _ => negative
  | .finite _, .inf negative => !negative
  | _, _ => false

mutual
/-- `x < y`. -/
def Json.less : Json → Json → Except Raised Bool
  | .str s, .str t => .ok (decide (s.map CodePoint.val < t.map CodePoint.val))
  | .arr xs, .arr ys => lessItems xs ys
  | x, y =>
      match x.numeric, y.numeric with
      | some a, some b => .ok (a.less b)
      | _, _ => .error .typeError

/-- Lists are compared where they first differ. -/
def lessItems : List Json → List Json → Except Raised Bool
  | x :: xs, y :: ys => if x.same y then lessItems xs ys else x.less y
  | [], _ :: _ => .ok true
  | _, [] => .ok false
end

/-- Insert `x` in front of the first element with a larger key. -/
def insertBy (key : α → Json) (x : α) : List α → Except Raised (List α)
  | [] => .ok [x]
  | y :: ys => do
      if ← (key x).less (key y) then return x :: y :: ys
      else return y :: (← insertBy key x ys)

/-- `sorted(xs, key=key)`.  Where the keys are comparable and none is NaN, it does not
matter which of them are compared. -/
def sortedBy (key : α → Json) (xs : List α) : Except Raised (List α) :=
  xs.foldlM (fun sorted x ↦ insertBy key x sorted) []

theorem less_int (a b : ℤ) : (Json.int a).less (.int b) = .ok (decide (a < b)) := by
  simp [Json.less, Json.numeric, PyFloat.less]

section Integers

variable {key : α → Json} {n : α → ℤ}

theorem insertBy_of_int {x : α} {ys : List α} (hx : key x = .int (n x))
    (hys : ∀ y ∈ ys, key y = .int (n y)) :
    ∃ zs, insertBy key x ys = .ok zs ∧ zs.Perm (x :: ys) := by
  induction ys with
  | nil => exact ⟨[x], rfl, .refl _⟩
  | cons y ys ih =>
      obtain ⟨hy, hrest⟩ := List.forall_mem_cons.mp hys
      obtain ⟨zs, hzs, hperm⟩ := ih hrest
      rw [insertBy, hx, hy, less_int, hzs]
      by_cases hlt : n x < n y
      · refine ⟨x :: y :: ys, ?_, .refl _⟩
        simp [bind, Except.bind, pure, Except.pure, hlt]
      · refine ⟨y :: zs, ?_, (hperm.cons y).trans (.swap x y ys)⟩
        simp [bind, Except.bind, pure, Except.pure, hlt]

/-- Elements with integer keys are sorted without an error. -/
theorem sortedBy_of_int {xs : List α} (hxs : ∀ x ∈ xs, key x = .int (n x)) :
    ∃ zs, sortedBy key xs = .ok zs ∧ zs.Perm xs := by
  have hloop : ∀ sorted : List α, (∀ y ∈ sorted, key y = .int (n y)) →
      ∃ zs, xs.foldlM (fun sorted x ↦ insertBy key x sorted) sorted = .ok zs ∧
        zs.Perm (sorted ++ xs) := by
    induction xs with
    | nil =>
        intro sorted _
        exact ⟨sorted, rfl, by simp⟩
    | cons x xs ih =>
        intro sorted hsorted
        obtain ⟨hx, hxs⟩ := List.forall_mem_cons.mp hxs
        obtain ⟨ys, hys, hperm⟩ := insertBy_of_int hx hsorted
        have hints : ∀ y ∈ ys, key y = .int (n y) := by
          intro y hy
          rcases List.mem_cons.mp (hperm.mem_iff.mp hy) with rfl | hy
          · exact hx
          · exact hsorted y hy
        obtain ⟨zs, hzs, hall⟩ := ih hxs ys hints
        refine ⟨zs, ?_, hall.trans ((hperm.append_right xs).trans List.perm_middle.symm)⟩
        rw [List.foldlM_cons, hys]
        exact hzs
  obtain ⟨zs, hzs, hperm⟩ := hloop [] (by simp)
  exact ⟨zs, hzs, by simpa using hperm⟩

end Integers

/-! ## Texts -/

/-- Four hexadecimal digits. -/
def hex4 (n : ℕ) : Str := ((Nat.toDigits 16 n).leftpad 4 '0').map CodePoint.ofChar

def shortEscapes : List (ℕ × Str) :=
  [(34, lit "\\\""), (92, lit "\\\\"), (8, lit "\\b"), (9, lit "\\t"), (10, lit "\\n"),
   (12, lit "\\f"), (13, lit "\\r")]

/-- A character in a JSON string of ASCII characters; above four digits it is a pair. -/
def escape (c : CodePoint) : Str :=
  match shortEscapes.lookup c.val with
  | some s => s
  | none =>
      if 32 ≤ c.val ∧ c.val ≤ 126 then [c]
      else if c.val < 0x10000 then lit "\\u" ++ hex4 c.val
      else lit "\\u" ++ hex4 (0xD800 + (c.val - 0x10000) / 0x400) ++
        lit "\\u" ++ hex4 (0xDC00 + (c.val - 0x10000) % 0x400)

def dumpsStr (s : Str) : Str := lit "\"" ++ s.flatMap escape ++ lit "\""

def dumpsFloat (T : PyText) : PyFloat → Str
  | .finite q => T.repr (.float (.finite q))
  | .inf negative => lit (if negative then "-Infinity" else "Infinity")
  | .nan => lit "NaN"

mutual
/-- `json.dumps(x, sort_keys=True)`. -/
def dumpsSorted (T : PyText) : Json → Str
  | .null => lit "null"
  | .bool b => lit (if b then "true" else "false")
  | .int n => T.repr (.int n)
  | .float x => dumpsFloat T x
  | .str s => dumpsStr s
  | .arr xs => lit "[" ++ (lit ", ").intercalate (dumpsSortedItems T xs) ++ lit "]"
  | .obj fields =>
      let entries := (dumpsSortedEntries T fields).insertionSort fun a b ↦
        a.1.map CodePoint.val ≤ b.1.map CodePoint.val
      lit "\x7b" ++ (lit ", ").intercalate (entries.map fun entry ↦
        dumpsStr entry.1 ++ lit ": " ++ entry.2) ++ lit "\x7d"

def dumpsSortedItems (T : PyText) : List Json → List Str
  | [] => []
  | x :: xs => dumpsSorted T x :: dumpsSortedItems T xs

def dumpsSortedEntries (T : PyText) : List (Str × Json) → List (Str × Str)
  | [] => []
  | (key, x) :: fields => (key, dumpsSorted T x) :: dumpsSortedEntries T fields
end

end PyJson
