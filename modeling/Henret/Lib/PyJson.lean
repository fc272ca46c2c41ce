import Henret.Lib.Outcome
import Henret.Lib.PyStr

/-!
# JSON values as Python holds them

Booleans are numbers and floats equal the integers they stand for, so `==`
identifies values of different types.  Sets and dictionaries compare their
keys by identity first, which makes a difference for NaN alone.
-/

namespace PyJson

open Outcome PyStr

abbrev Str := List CodePoint

def lit (s : String) : Str := s.toList.map CodePoint.ofChar

inductive PyFloat
  | finite (q : ℚ)
  | inf (negative : Bool)
  | nan
deriving DecidableEq

inductive Json
  | null
  | bool (b : Bool)
  | int (n : ℤ)
  | float (x : PyFloat)
  | str (s : Str)
  | arr (xs : List Json)
  | obj (fields : List (Str × Json))

abbrev Fields := List (Str × Json)

/-- The exceptions that end a run. -/
inductive Raised
  | typeError
  | attributeError
  | valueError
  | keyError
  | osError
deriving DecidableEq

namespace Fields

/-- `fields.get(key, default)`. -/
def getD (fields : Fields) (key : Str) (d : Json) : Json := (fields.lookup key).getD d

def get (fields : Fields) (key : Str) : Json := fields.getD key .null

def keys (fields : Fields) : List Str := fields.map Prod.fst

/-- `fields[key] = x`: an entry keeps its place. -/
def set (fields : Fields) (key : Str) (x : Json) : Fields :=
  if key ∈ fields.keys then fields.map fun entry ↦ if entry.1 = key then (key, x) else entry
  else fields ++ [(key, x)]

end Fields

namespace Json

def numeric : Json → Option PyFloat
  | .bool b => some (.finite (if b then 1 else 0))
  | .int n => some (.finite n)
  | .float x => some x
  | _ => none

mutual
/-- `x is y or x == y`: the test of sets, dictionaries and `in`. -/
def same : Json → Json → Bool
  | .null, .null => true
  | .str s, .str t => s == t
  | .arr xs, .arr ys => sameItems xs ys
  | .obj f, .obj g => f.length == g.length && sameFields f g
  | x, y =>
      match x.numeric, y.numeric with
      | some a, some b => a == b
      | _, _ => false

def sameItems : List Json → List Json → Bool
  | [], [] => true
  | x :: xs, y :: ys => same x y && sameItems xs ys
  | _, _ => false

def sameFields : List (Str × Json) → List (Str × Json) → Bool
  | [], _ => true
  | (k, x) :: f, g =>
      (match g.lookup k with
        | some y => same x y
        | none => false) && sameFields f g
end

mutual
/-- No dictionary within the value names a key twice. -/
def unique : Json → Bool
  | .arr xs => uniqueItems xs
  | .obj fields => decide (Fields.keys fields).Nodup && uniqueFields fields
  | _ => true

def uniqueItems : List Json → Bool
  | [] => true
  | x :: xs => unique x && uniqueItems xs

def uniqueFields : List (Str × Json) → Bool
  | [] => true
  | (_, x) :: fields => unique x && uniqueFields fields
end

def isNaN : Json → Bool
  | .float .nan => true
  | _ => false

/-- `x == y`. -/
def eq (x y : Json) : Bool := same x y && !x.isNaN

def hashable : Json → Bool
  | .arr _ | .obj _ => false
  | _ => true

def isInt : Json → Bool
  | .int _ => true
  | _ => false

def isStr : Json → Bool
  | .str _ => true
  | _ => false

/-- The receiver of a `.get(...)` call. -/
def asDict : Json → Except Raised Fields
  | .obj fields => .ok fields
  | _ => .error .attributeError

/-- What `for x in value` runs through. -/
def iterate : Json → Except Raised (List Json)
  | .arr xs => .ok xs
  | .obj fields => .ok ((Fields.keys fields).map .str)
  | .str s => .ok (s.map fun c ↦ .str [c])
  | _ => .error .typeError

/-- `x or default`. -/
def orElse (x d : Json) : Json :=
  match x with
  | .null | .bool false | .int 0 | .str [] | .arr [] | .obj [] => d
  | .float (.finite q) => if q = 0 then d else x
  | _ => x

/-- `seen.add(x)`. -/
def insertNew (seen : List Json) (x : Json) : List Json :=
  if seen.any (same x) then seen else seen ++ [x]

/-- The members of `set(xs)`. -/
def distinct (xs : List Json) : List Json := xs.foldl insertNew []

end Json

/-! ## Strings -/

/-- The error texts of a check that fails if `c`. -/
def report (c : Bool) (text : Str) : List Str := if c then [text] else []

/-- `set(xs) == set(ys)`. -/
def sameSet (xs ys : List Str) : Bool :=
  xs.all (fun x ↦ decide (x ∈ ys)) && ys.all (fun y ↦ decide (y ∈ xs))

def sorted (xs : List Str) : List Str :=
  xs.insertionSort fun a b ↦ a.map CodePoint.val ≤ b.map CodePoint.val

def isLowerHex (c : CodePoint) : Bool :=
  decide (48 ≤ c.val ∧ c.val ≤ 57) || decide (97 ≤ c.val ∧ c.val ≤ 102)

/-- A full match of the pattern for exactly `n` lowercase hexadecimal digits. -/
def fullHex (n : ℕ) (s : Str) : Bool := s.length == n && s.all isLowerHex

/-- The value is a string of `n` lowercase hexadecimal digits. -/
def Json.isHex (n : ℕ) : Json → Bool
  | .str s => fullHex n s
  | _ => false

/-- Python's text functions on values and characters. -/
structure PyText where
  str : Json → Str
  repr : Json → Str
  isDigit : CodePoint → Bool
  str_str : ∀ s, str (.str s) = s
  isDigit_ascii : ∀ c : CodePoint, c.val < 128 → isDigit c = (decide (48 ≤ c.val) && decide (c.val ≤ 57))

/-- Python's text of the scalar values. -/
def scalarText : PyText where
  str
    | .str s => s
    | .null => lit "None"
    | .bool b => lit (if b then "True" else "False")
    | .int n => lit (toString n)
    | _ => []
  repr
    | .str s => lit "'" ++ s ++ lit "'"
    | _ => []
  isDigit := fun c ↦ decide (48 ≤ c.val) && decide (c.val ≤ 57)
  str_str := fun _ ↦ rfl
  isDigit_ascii := fun _ _ ↦ rfl

def text (s : String) : Json := .str (lit s)

theorem sameSet_iff {xs ys : List Str} : sameSet xs ys = true ↔ ∀ s, s ∈ xs ↔ s ∈ ys := by
  simp only [sameSet, Bool.and_eq_true, List.all_eq_true, decide_eq_true_eq]
  refine ⟨fun h s ↦ ⟨h.1 s, h.2 s⟩, fun h ↦ ⟨fun s ↦ (h s).mp, fun s ↦ (h s).mpr⟩⟩

namespace Json

theorem same_str_left {s : Str} {x : Json} : same (.str s) x = true ↔ x = .str s := by
  cases x with
  | str t =>
      simp only [same, beq_iff_eq, str.injEq]
      exact eq_comm
  | _ => simp [same, numeric]

theorem same_str_right {s : Str} {x : Json} : same x (.str s) = true ↔ x = .str s := by
  cases x with
  | str t => simp [same]
  | _ => simp [same, numeric]

theorem same_int {a b : ℤ} : same (.int a) (.int b) = true ↔ a = b := by
  simp [same, numeric]

theorem eq_str {s : Str} {x : Json} : eq x (.str s) = true ↔ x = .str s := by
  rw [eq, Bool.and_eq_true, same_str_right]
  refine ⟨fun h ↦ h.1, ?_⟩
  rintro rfl
  exact ⟨rfl, rfl⟩

theorem isNaN_eq (x : Json) : x.isNaN = decide (x.numeric = some .nan) := by
  cases x with
  | float a => cases a <;> simp [isNaN, numeric]
  | _ => simp [isNaN, numeric]

theorem numeric_of_same {x y : Json} (h : same x y = true) : x.numeric = y.numeric := by
  cases x <;> cases y <;> simp_all [same, numeric]

theorem isNaN_of_same {x y : Json} (h : same x y = true) : x.isNaN = y.isNaN := by
  rw [isNaN_eq, isNaN_eq, numeric_of_same h]

/-- A key found in a dictionary equals the key it is stored under, unless that is NaN. -/
theorem eq_of_same {x y : Json} (h : same x y = true) (hy : y.isNaN = false) : eq x y = true := by
  rw [eq, h, isNaN_of_same h, hy]
  rfl

theorem not_isNaN_of_eq {x y : Json} (h : eq x y = true) : y.isNaN = false := by
  rw [eq, Bool.and_eq_true, Bool.not_eq_true'] at h
  rw [← isNaN_of_same h.1, h.2]

theorem isInt_iff {x : Json} : x.isInt = true ↔ ∃ n, x = .int n := by
  cases x <;> simp [isInt]

theorem eq_int {a b : ℤ} : eq (.int a) (.int b) = true ↔ a = b := by
  simp [eq, isNaN, same_int]

theorem length_foldl_insertNew_le (xs seen : List Json) :
    (xs.foldl insertNew seen).length ≤ seen.length + xs.length := by
  induction xs generalizing seen with
  | nil => exact Nat.le_refl _
  | cons x xs ih =>
      have hnew : (insertNew seen x).length ≤ seen.length + 1 := by
        rw [insertNew]
        split <;> simp
      have htail := ih (insertNew seen x)
      rw [List.foldl_cons, List.length_cons]
      omega

/-- If every member is added, none equals one added before. -/
theorem fresh_of_length_foldl {xs seen : List Json}
    (h : (xs.foldl insertNew seen).length = seen.length + xs.length) :
    (∀ x ∈ xs, ∀ y ∈ seen, same x y = false) ∧
      xs.Pairwise fun earlier later ↦ same later earlier = false := by
  induction xs generalizing seen with
  | nil => simp
  | cons x xs ih =>
      rw [List.foldl_cons, List.length_cons] at h
      by_cases hseen : seen.any (same x) = true
      · have hle := length_foldl_insertNew_le xs seen
        rw [insertNew, if_pos hseen] at h
        omega
      · rw [insertNew, if_neg hseen] at h
        obtain ⟨hfresh, hpairs⟩ := ih (by
          rw [h, List.length_append, List.length_singleton]
          omega)
        have hx : ∀ y ∈ seen, same x y = false := by simpa using hseen
        refine ⟨List.forall_mem_cons.mpr ⟨hx, ?_⟩, List.pairwise_cons.mpr ⟨?_, hpairs⟩⟩
        · intro z hz y hy
          exact hfresh z hz y (List.mem_append_left [x] hy)
        · intro z hz
          exact hfresh z hz x (by simp)

theorem exists_ints {xs : List Json} (h : xs.all isInt = true) : ∃ ns : List ℤ, xs = ns.map .int := by
  induction xs with
  | nil => exact ⟨[], rfl⟩
  | cons x xs ih =>
      rw [List.all_cons, Bool.and_eq_true] at h
      obtain ⟨n, rfl⟩ := isInt_iff.mp h.1
      obtain ⟨ns, rfl⟩ := ih h.2
      exact ⟨n :: ns, rfl⟩

theorem nodup_of_length_distinct {ns : List ℤ}
    (h : (ns.map Json.int).length = (distinct (ns.map Json.int)).length) : ns.Nodup := by
  have hadded : ((ns.map Json.int).foldl insertNew []).length =
      ([] : List Json).length + (ns.map Json.int).length := by
    rw [List.length_nil, Nat.zero_add]
    exact h.symm
  have hpairs := (fresh_of_length_foldl hadded).2
  rw [List.pairwise_map] at hpairs
  apply hpairs.imp
  intro a b hab heq
  rw [heq, same_int.mpr rfl] at hab
  cases hab

theorem asDict_ok_iff {x : Json} {fields : Fields} : x.asDict = .ok fields ↔ x = .obj fields := by
  cases x <;> simp [asDict]

theorem exists_dicts {xs : List Json} (h : ∀ x ∈ xs, ∃ fields, x = .obj fields) :
    ∃ dicts : List Fields, xs = dicts.map .obj := by
  induction xs with
  | nil => exact ⟨[], rfl⟩
  | cons x xs ih =>
      obtain ⟨⟨fields, rfl⟩, hxs⟩ := List.forall_mem_cons.mp h
      obtain ⟨dicts, rfl⟩ := ih hxs
      exact ⟨fields :: dicts, rfl⟩

theorem mapM_asDict_ok_iff {xs : List Json} {dicts : List Fields} :
    xs.mapM asDict = .ok dicts ↔ xs = dicts.map .obj := by
  induction xs generalizing dicts with
  | nil => cases dicts <;> simp [pure, Except.pure]
  | cons x xs ih =>
      rw [List.mapM_cons, bind_ok_iff]
      constructor
      · rintro ⟨fields, hx, hrest⟩
        obtain ⟨rest, hxs, heq⟩ := bind_ok_iff.mp hrest
        cases heq
        rw [asDict_ok_iff.mp hx, ih.mp hxs]
        rfl
      · intro h
        cases dicts with
        | nil => cases h
        | cons fields rest =>
            obtain ⟨rfl, rfl⟩ := List.cons.inj h
            exact ⟨fields, rfl, bind_ok_iff.mpr ⟨rest, ih.mpr rfl, rfl⟩⟩

/-- Only a list runs through dictionaries. -/
theorem iterate_dicts {x : Json} {dicts : List Fields} (hne : dicts ≠ [])
    (h : x.iterate = .ok (dicts.map .obj)) : x = .arr (dicts.map .obj) := by
  obtain ⟨fields, rest, rfl⟩ := List.exists_cons_of_ne_nil hne
  cases x with
  | arr xs => simpa [iterate] using h
  | obj f => cases f <;> simp [iterate, Fields.keys] at h
  | str s => cases s <;> simp [iterate] at h
  | _ => simp [iterate] at h

end Json

theorem report_eq_nil_iff {c : Bool} {text : Str} : report c text = [] ↔ c = false := by
  cases c <;> simp [report]

theorem Fields.get_of_getD {fields : Fields} {key : Str} {d x : Json} (hd : x ≠ d)
    (h : fields.getD key d = x) : fields.get key = x := by
  unfold Fields.get
  unfold Fields.getD at h ⊢
  cases hkey : fields.lookup key with
  | none =>
      rw [hkey] at h
      exact absurd h.symm hd
  | some y =>
      rw [hkey] at h
      exact h

theorem Fields.getD_of_get {fields : Fields} {key : Str} {d x : Json} (hx : x ≠ .null)
    (h : fields.get key = x) : fields.getD key d = x := by
  unfold Fields.get at h
  unfold Fields.getD at h ⊢
  cases hkey : fields.lookup key with
  | none =>
      rw [hkey] at h
      exact absurd h.symm hx
  | some y =>
      rw [hkey] at h
      exact h

namespace Fields

theorem lookup_eq_none_of_notMem {fields : Fields} {key : Str} (h : key ∉ fields.keys) :
    fields.lookup key = none := by
  induction fields with
  | nil => rfl
  | cons entry fields ih =>
      obtain ⟨k, x⟩ := entry
      rw [keys, List.map_cons, List.mem_cons, not_or] at h
      rw [List.lookup_cons, beq_false_of_ne h.1]
      exact ih h.2

theorem mem_keys_iff {fields : Fields} {key : Str} :
    key ∈ fields.keys ↔ (fields.lookup key).isSome = true := by
  constructor
  · intro h
    obtain ⟨entry, hentry, rfl⟩ := List.mem_map.mp h
    rw [Option.isSome_iff_ne_none]
    intro hnone
    simpa using List.lookup_eq_none_iff.mp hnone entry hentry
  · intro h
    by_contra hmem
    rw [lookup_eq_none_of_notMem hmem] at h
    cases h

theorem mem_keys_of_get {fields : Fields} {key : Str} {x : Json} (hx : x ≠ .null)
    (h : fields.get key = x) : key ∈ fields.keys := by
  by_contra hmem
  rw [get, getD, lookup_eq_none_of_notMem hmem] at h
  exact hx h.symm

/-- The entries computed from a table are found as the table's are. -/
theorem lookup_map {α : Type} (table : List (Str × α)) (f : α → Json) (key : Str) :
    (table.map fun row ↦ (row.1, f row.2)).lookup key = (table.lookup key).map f := by
  induction table with
  | nil => rfl
  | cons row table ih =>
      rw [List.map_cons, List.lookup_cons, List.lookup_cons, ih]
      split <;> rfl

theorem lookup_set_self (fields : Fields) (key : Str) (x : Json) :
    (fields.set key x).lookup key = some x := by
  unfold set
  split
  · rename_i hmem
    induction fields with
    | nil => cases hmem
    | cons entry fields ih =>
        obtain ⟨k, y⟩ := entry
        by_cases hk : k = key
        · rw [List.map_cons, if_pos hk, List.lookup_cons_self]
        · have hmem' : key ∈ keys fields := (List.mem_cons.mp hmem).resolve_left (Ne.symm hk)
          rw [List.map_cons, if_neg hk, List.lookup_cons, beq_false_of_ne (Ne.symm hk)]
          exact ih hmem'
  · rename_i hmem
    rw [List.lookup_append, lookup_eq_none_of_notMem hmem, List.lookup_cons_self]
    rfl

theorem lookup_set_of_ne (fields : Fields) {key key' : Str} (x : Json) (hne : key' ≠ key) :
    (fields.set key x).lookup key' = fields.lookup key' := by
  unfold set
  split
  · clear * - hne
    induction fields with
    | nil => rfl
    | cons entry fields ih =>
        obtain ⟨k, y⟩ := entry
        by_cases hk : k = key
        · rw [List.map_cons, if_pos hk, List.lookup_cons, List.lookup_cons, beq_false_of_ne hne,
            beq_false_of_ne (hk ▸ hne)]
          exact ih
        · rw [List.map_cons, if_neg hk, List.lookup_cons, List.lookup_cons, ih]
  · rw [List.lookup_append, List.lookup_cons, beq_false_of_ne hne]
    simp

theorem set_of_notMem {fields : Fields} {key : Str} (x : Json) (h : key ∉ fields.keys) :
    fields.set key x = fields ++ [(key, x)] :=
  if_neg h

theorem set_cons_self {fields : Fields} {key : Str} (x y : Json) (h : key ∉ fields.keys) :
    set ((key, x) :: fields) key y = (key, y) :: fields := by
  have hrest : fields.map (fun entry ↦ if entry.1 = key then (key, y) else entry) = fields := by
    rw [List.map_congr_left fun entry hentry ↦ if_neg fun heq ↦ h ?_, List.map_id']
    exact heq ▸ List.mem_map_of_mem hentry
  rw [set, if_pos (by simp [keys]), List.map_cons, if_pos rfl, hrest]

/-- A dictionary that names no key twice is copied behind an entry, which it may replace. -/
theorem foldl_set_eq {k : Str} (x : Json) {seen fields : Fields} (hk : k ∉ seen.keys)
    (hseen : ∀ key ∈ fields.keys, key ∉ seen.keys) (hnodup : fields.keys.Nodup) :
    fields.foldl (fun copy entry ↦ set copy entry.1 entry.2) ((k, x) :: seen) =
      (k, fields.getD k x) :: (seen ++ fields.filter fun entry ↦ decide (entry.1 ≠ k)) := by
  induction fields generalizing x seen with
  | nil => simp [getD]
  | cons entry fields ih =>
      obtain ⟨key, y⟩ := entry
      obtain ⟨hkey, hnodup⟩ := List.nodup_cons.mp hnodup
      obtain ⟨hfresh, hseen⟩ := List.forall_mem_cons.mp hseen
      rw [List.foldl_cons]
      by_cases heq : key = k
      · subst heq
        rw [set_cons_self x y hk, ih y hk hseen hnodup, getD, getD, lookup_eq_none_of_notMem hkey,
          List.lookup_cons_self]
        simp
      · have hnew : key ∉ keys ((k, x) :: seen) := by
          rw [keys, List.map_cons, List.mem_cons, not_or]
          exact ⟨heq, hfresh⟩
        have hk' : k ∉ keys (seen ++ [(key, y)]) := by
          rw [keys, List.map_append, List.mem_append, not_or]
          exact ⟨hk, by simpa using Ne.symm heq⟩
        have hseen' : ∀ key' ∈ keys fields, key' ∉ keys (seen ++ [(key, y)]) := by
          intro key' hkey' hmem
          rw [keys, List.map_append, List.mem_append] at hmem
          rcases hmem with hmem | hmem
          · exact hseen key' hkey' hmem
          · exact hkey (List.mem_singleton.mp hmem ▸ hkey')
        rw [set_of_notMem y hnew, List.cons_append, ih x hk' hseen' hnodup, getD, getD,
          List.lookup_cons, beq_false_of_ne (Ne.symm heq), List.filter_cons_of_pos (by simpa using heq)]
        simp

theorem get_set_self (fields : Fields) (key : Str) (x : Json) :
    (fields.set key x).get key = x := by
  rw [get, getD, lookup_set_self]
  rfl

theorem lookup_of_mem {α : Type} {table : List (Str × α)} {key : Str} {x : α}
    (h : (key, x) ∈ table) (hnodup : (table.map Prod.fst).Nodup) : table.lookup key = some x := by
  induction table with
  | nil => cases h
  | cons row table ih =>
      obtain ⟨hrow, hnodup⟩ := List.nodup_cons.mp hnodup
      rcases List.mem_cons.mp h with rfl | h
      · exact List.lookup_cons_self
      · have hne : key ≠ row.1 := by
          rintro rfl
          exact hrow (List.mem_map.mpr ⟨(row.1, x), h, rfl⟩)
        rw [List.lookup_cons, beq_false_of_ne hne]
        exact ih h hnodup

end Fields

namespace Json

theorem keys_nodup {fields : Fields} (h : (Json.obj fields).unique = true) :
    fields.keys.Nodup := by
  rw [unique, Bool.and_eq_true, decide_eq_true_eq] at h
  exact h.1

mutual
theorem same_self : ∀ x : Json, x.unique = true → same x x = true
  | .null, _ => rfl
  | .bool _, _ => by simp [same, numeric]
  | .int _, _ => by simp [same, numeric]
  | .float _, _ => by simp [same, numeric]
  | .str _, _ => by simp [same]
  | .arr xs, h => sameItems_self xs h
  | .obj fields, h => by
      rw [unique, Bool.and_eq_true, decide_eq_true_eq] at h
      rw [same, Bool.and_eq_true, beq_iff_eq]
      exact ⟨rfl, sameFields_of_lookup fields fields h.2 fun k x hmem ↦
        Fields.lookup_of_mem hmem h.1⟩

theorem sameItems_self : ∀ xs : List Json, uniqueItems xs = true → sameItems xs xs = true
  | [], _ => rfl
  | x :: xs, h => by
      rw [uniqueItems, Bool.and_eq_true] at h
      rw [sameItems, same_self x h.1, sameItems_self xs h.2]
      rfl

theorem sameFields_of_lookup : ∀ fields fields' : List (Str × Json),
    uniqueFields fields = true → (∀ k x, (k, x) ∈ fields → fields'.lookup k = some x) →
    sameFields fields fields' = true
  | [], _, _, _ => rfl
  | (k, x) :: fields, fields', h, hlookup => by
      rw [uniqueFields, Bool.and_eq_true] at h
      simp only [sameFields, hlookup k x List.mem_cons_self, same_self x h.1, Bool.true_and]
      exact sameFields_of_lookup fields fields' h.2 fun k' x' hmem ↦
        hlookup k' x' (List.mem_cons_of_mem _ hmem)
end

end Json

end PyJson
