import Henret.Lib.PyStr

/-!
# Pure POSIX paths

`PurePosixPath` of the Python library: a root and parts, where empty parts and
`.` are dropped and `..` is kept.  A path whose text is already normal is the
join of its parts, and its parents are the proper initial parts.
-/

namespace PosixPath

open PyStr

def sep : CodePoint := CodePoint.ofChar '/'

def dot : CodePoint := CodePoint.ofChar '.'

structure PurePosixPath where
  root : List CodePoint
  parts : List (List CodePoint)
deriving DecidableEq

/-- `posixpath.splitroot`: exactly two leading slashes are a root of their own. -/
def splitRoot (path : List CodePoint) : List CodePoint × List CodePoint :=
  if path[0]? ≠ some sep then ([], path)
  else if path[1]? ≠ some sep ∨ path[2]? = some sep then ([sep], path.drop 1)
  else ([sep, sep], path.drop 2)

def isPart (part : List CodePoint) : Bool :=
  part ≠ [] ∧ part ≠ [dot]

namespace PurePosixPath

def ofStr (path : List CodePoint) : PurePosixPath :=
  ⟨(splitRoot path).1, ((splitRoot path).2.splitOn sep).filter isPart⟩

/-- `PurePosixPath(".")`. -/
def here : PurePosixPath := ⟨[], []⟩

def IsAbsolute (p : PurePosixPath) : Prop := p.root ≠ []

instance (p : PurePosixPath) : Decidable p.IsAbsolute :=
  inferInstanceAs (Decidable (_ ≠ _))

/-- A path without parts is its own parent. -/
def parent (p : PurePosixPath) : PurePosixPath :=
  { p with parts := p.parts.dropLast }

/-- `as_posix`; the text of a path without root and parts is `.`. -/
def asPosix (p : PurePosixPath) : List CodePoint :=
  if p = here then [dot] else p.root ++ [sep].intercalate p.parts

/-- The text is the normal form of the path it denotes. -/
def Normal (path : List CodePoint) : Prop :=
  (ofStr path).asPosix = path ∧ ¬ (ofStr path).IsAbsolute

theorem length_parent_lt {p : PurePosixPath} (h : p.parts ≠ []) :
    p.parent.parts.length < p.parts.length := by
  rw [parent, List.length_dropLast]
  exact Nat.sub_lt (List.length_pos_of_ne_nil h) Nat.one_pos

/-- The texts of `p`, its parent, the parent of that and so on up to `.`.  The
root of an absolute path is its own parent, so that its climb does not end. -/
def climb (p : PurePosixPath) : Option (List (List CodePoint)) :=
  if p = here then some []
  else if _h : p.parts = [] then none
  else p.parent.climb.map (p.asPosix :: ·)
termination_by p.parts.length
decreasing_by exact length_parent_lt _h

theorem climb_here : here.climb = some [] := by
  rw [climb, if_pos rfl]

/-- An absolute path never climbs to `.`. -/
theorem climb_absolute {p : PurePosixPath} (h : p.IsAbsolute) : p.climb = none := by
  induction hn : p.parts.length using Nat.strong_induction_on generalizing p with
  | _ n ih =>
      have hne : p ≠ here := by
        rintro rfl
        exact h rfl
      rw [climb, if_neg hne]
      split
      · rfl
      · rename_i hparts
        have hlt := length_parent_lt hparts
        rw [ih _ (hn ▸ hlt) (show p.parent.IsAbsolute from h) rfl]
        rfl

/-- The nonempty initial segments of a list, the longest first. -/
def segments {α : Type*} (l : List α) : List (List α) :=
  ((List.range l.length).map fun i ↦ l.take (i + 1)).reverse

theorem segments_concat {α : Type*} (l : List α) (x : α) :
    segments (l ++ [x]) = (l ++ [x]) :: segments l := by
  have hshort : (List.range l.length).map (fun i ↦ (l ++ [x]).take (i + 1)) =
      (List.range l.length).map fun i ↦ l.take (i + 1) := by
    apply List.map_congr_left
    intro i hi
    exact List.take_append_of_le_length (List.mem_range.mp hi)
  rw [segments, List.length_append, List.length_singleton, List.range_succ, List.map_append,
    hshort, List.reverse_append, ← segments]
  simp

theorem asPosix_relative {parts : List (List CodePoint)} (h : parts ≠ []) :
    asPosix ⟨[], parts⟩ = [sep].intercalate parts := by
  rw [asPosix, if_neg]
  · rfl
  · intro heq
    exact h (congrArg PurePosixPath.parts heq)

/-- A relative path climbs through its initial segments. -/
theorem climb_relative (parts : List (List CodePoint)) :
    climb ⟨[], parts⟩ = some ((segments parts).map fun ps ↦ [sep].intercalate ps) := by
  induction parts using List.reverseRecOn with
  | nil => exact climb_here
  | append_singleton ps x ih =>
      have hne : ps ++ [x] ≠ [] := by simp
      have hnothere : (⟨[], ps ++ [x]⟩ : PurePosixPath) ≠ here := by
        intro heq
        exact hne (congrArg PurePosixPath.parts heq)
      have hparent : parent ⟨[], ps ++ [x]⟩ = ⟨[], ps⟩ := by
        rw [parent, List.dropLast_concat]
      rw [climb, if_neg hnothere, dif_neg hne, hparent, ih, segments_concat, asPosix_relative hne]
      rfl

theorem intercalate_append {α : Type*} {x : List α} {l l' : List (List α)} (h : l ≠ [])
    (h' : l' ≠ []) : x.intercalate (l ++ l') = x.intercalate l ++ (x ++ x.intercalate l') := by
  induction l with
  | nil => exact absurd rfl h
  | cons a l ih =>
      by_cases hl : l = []
      · subst hl
        rw [List.singleton_append, List.intercalate_cons_of_ne_nil h', List.intercalate_singleton,
          List.append_assoc]
      · have hne : l ++ l' ≠ [] := fun heq ↦ hl (List.append_eq_nil_iff.mp heq).1
        rw [List.cons_append, List.intercalate_cons_of_ne_nil hne,
          List.intercalate_cons_of_ne_nil hl, ih hl]
        simp only [List.append_assoc]

/-! ## Parts -/

theorem not_mem_of_mem_splitOn {α : Type*} [DecidableEq α] {x : α} {xs part : List α}
    (h : part ∈ xs.splitOn x) : x ∉ part := by
  induction xs generalizing part with
  | nil =>
      rw [List.splitOn_nil, List.mem_singleton] at h
      rw [h]
      exact List.not_mem_nil
  | cons y xs ih =>
      rw [List.splitOn_cons_eq_if_modifyHead] at h
      split at h
      · rcases List.mem_cons.mp h with rfl | h
        · exact List.not_mem_nil
        · exact ih h
      · rename_i hy
        obtain ⟨first, rest, hsplit⟩ := List.exists_cons_of_ne_nil (List.splitOn_ne_nil x xs)
        rw [hsplit, List.modifyHead_cons] at h
        rcases List.mem_cons.mp h with rfl | h
        · have hfirst : x ∉ first := by
            apply ih
            rw [hsplit]
            exact List.mem_cons_self
          intro hmem
          rcases List.mem_cons.mp hmem with rfl | hmem
          · simp at hy
          · exact hfirst hmem
        · apply ih
          rw [hsplit]
          exact List.mem_cons_of_mem _ h

/-- What the parts of a parsed path look like. -/
def Parts (ps : List (List CodePoint)) : Prop :=
  ∀ part ∈ ps, part ≠ [] ∧ part ≠ [dot] ∧ sep ∉ part

theorem parts_ofStr (path : List CodePoint) : Parts (ofStr path).parts := by
  intro part hmem
  obtain ⟨hsplit, hpart⟩ := List.mem_filter.mp hmem
  rw [isPart, decide_eq_true_eq] at hpart
  exact ⟨hpart.1, hpart.2, not_mem_of_mem_splitOn hsplit⟩

theorem Parts.take {ps : List (List CodePoint)} (h : Parts ps) (k : ℕ) : Parts (ps.take k) :=
  fun part hmem ↦ h part (List.mem_of_mem_take hmem)

/-- The text of a relative path starts with its first part. -/
theorem Parts.intercalate_cons {ps : List (List CodePoint)} (h : Parts ps) (hne : ps ≠ []) :
    ∃ c cs rest, [sep].intercalate ps = c :: (cs ++ rest) ∧ c ≠ sep ∧ c :: cs ≠ [dot] ∧
      sep ∉ cs ∧ (rest = [] ∨ ∃ more, rest = sep :: more) := by
  obtain ⟨part, more, rfl⟩ := List.exists_cons_of_ne_nil hne
  obtain ⟨hpart, hdot, hsep⟩ := h part List.mem_cons_self
  obtain ⟨c, cs, rfl⟩ := List.exists_cons_of_ne_nil hpart
  rw [List.mem_cons, not_or] at hsep
  by_cases hmore : more = []
  · refine ⟨c, cs, [], ?_, Ne.symm hsep.1, hdot, hsep.2, Or.inl rfl⟩
    rw [hmore, List.intercalate_singleton, List.append_nil]
  · refine ⟨c, cs, sep :: [sep].intercalate more, ?_, Ne.symm hsep.1, hdot, hsep.2,
      Or.inr ⟨_, rfl⟩⟩
    rw [List.intercalate_cons_of_ne_nil hmore]
    simp

/-- Parsing the text of a relative path gives its parts. -/
theorem ofStr_intercalate {ps : List (List CodePoint)} (h : Parts ps) (hne : ps ≠ []) :
    ofStr ([sep].intercalate ps) = ⟨[], ps⟩ := by
  have hroot : splitRoot ([sep].intercalate ps) = ([], [sep].intercalate ps) := by
    obtain ⟨c, cs, rest, heq, hc, -⟩ := h.intercalate_cons hne
    rw [heq, splitRoot, if_pos]
    simpa using hc
  have hsplit : ([sep].intercalate ps).splitOn sep = ps := by
    apply List.splitOn_intercalate _ ?_ hne
    intro part hmem
    exact (h part hmem).2.2
  have hfilter : ps.filter isPart = ps := by
    apply List.filter_eq_self.mpr
    intro part hmem
    rw [isPart, decide_eq_true_eq]
    exact ⟨(h part hmem).1, (h part hmem).2.1⟩
  rw [ofStr, hroot, hsplit, hfilter]

theorem Parts.intercalate_ne_nil {ps : List (List CodePoint)} (h : Parts ps) (hne : ps ≠ []) :
    [sep].intercalate ps ≠ [] := by
  obtain ⟨c, cs, rest, heq, -⟩ := h.intercalate_cons hne
  rw [heq]
  exact List.cons_ne_nil _ _

theorem Parts.not_dot_sep {ps : List (List CodePoint)} (h : Parts ps) (hne : ps ≠ []) :
    ¬ [dot, sep] <+: [sep].intercalate ps := by
  obtain ⟨c, cs, rest, heq, hc, hdot, hsep, -⟩ := h.intercalate_cons hne
  rw [heq, List.cons_prefix_cons]
  rintro ⟨rfl, hpre⟩
  cases cs with
  | nil => exact hdot rfl
  | cons c' cs =>
      rw [List.cons_append, List.cons_prefix_cons] at hpre
      exact hsep (hpre.1 ▸ List.mem_cons_self)

theorem Parts.getLast?_intercalate {ps : List (List CodePoint)} (h : Parts ps) (hne : ps ≠ []) :
    ([sep].intercalate ps).getLast? ≠ some sep := by
  obtain ⟨front, part, rfl⟩ := (List.eq_nil_or_concat' ps).resolve_left hne
  obtain ⟨hpart, -, hsep⟩ := h part (List.mem_append_right _ List.mem_cons_self)
  have hlast : ([sep].intercalate (front ++ [part])).getLast? = part.getLast? := by
    by_cases hfront : front = []
    · rw [hfront, List.nil_append, List.intercalate_singleton]
    · rw [intercalate_append hfront (List.cons_ne_nil _ _), List.intercalate_singleton,
        List.getLast?_append_of_ne_nil _ (by simp), List.getLast?_append_of_ne_nil _ hpart]
  rw [hlast]
  intro heq
  exact hsep (List.mem_of_getLast? heq)

/-! ## The directories above a path -/

/-- The texts of the proper initial parts of a path. -/
def ancestors (p : PurePosixPath) : List (List CodePoint) :=
  (List.range (p.parts.length - 1)).map fun k ↦ [sep].intercalate (p.parts.take (k + 1))

theorem mem_ancestors {p : PurePosixPath} {d : List CodePoint} :
    d ∈ p.ancestors ↔
      ∃ k, 0 < k ∧ k < p.parts.length ∧ d = [sep].intercalate (p.parts.take k) := by
  simp only [ancestors, List.mem_map, List.mem_range]
  constructor
  · rintro ⟨k, hk, rfl⟩
    exact ⟨k + 1, Nat.succ_pos k, by omega, rfl⟩
  · rintro ⟨k, hpos, hk, rfl⟩
    refine ⟨k - 1, by omega, ?_⟩
    rw [Nat.sub_add_cancel hpos]

/-- A relative path climbs through its ancestors, and an absolute one does not come to an end. -/
theorem climb_parent (p : PurePosixPath) :
    p.parent.climb = if p.root = [] then some p.ancestors.reverse else none := by
  split
  · rename_i hroot
    have hparent : p.parent = ⟨[], p.parts.dropLast⟩ := by
      rw [parent, hroot]
    have htake : ∀ i ∈ List.range (p.parts.length - 1),
        [sep].intercalate (p.parts.dropLast.take (i + 1)) =
          [sep].intercalate (p.parts.take (i + 1)) := by
      intro i hi
      rw [List.mem_range] at hi
      rw [List.dropLast_eq_take, List.take_take, Nat.min_eq_left (by omega)]
    rw [hparent, climb_relative, segments, List.map_reverse, List.map_map, List.length_dropLast,
      ancestors]
    exact congrArg (fun ds ↦ some ds.reverse) (List.map_congr_left htake)
  · rename_i hroot
    exact climb_absolute (p := p.parent) hroot

/-- A text in normal form extends the texts of its ancestors at a separator. -/
theorem Normal.extends_ancestor {path d : List CodePoint} (h : Normal path)
    (hd : d ∈ (ofStr path).ancestors) : ∃ rest, rest ≠ [] ∧ path = d ++ sep :: rest := by
  obtain ⟨k, hpos, hlt, rfl⟩ := mem_ancestors.mp hd
  have hroot : (ofStr path).root = [] := not_not.mp h.2
  have hparts : (ofStr path).parts ≠ [] := by
    rw [← List.length_pos_iff]
    omega
  have hhead : (ofStr path).parts.take k ≠ [] := by
    rw [ne_eq, List.take_eq_nil_iff]
    simp [hparts, hpos.ne']
  have htail : (ofStr path).parts.drop k ≠ [] := by
    rw [ne_eq, List.drop_eq_nil_iff]
    omega
  have htailParts : Parts ((ofStr path).parts.drop k) :=
    fun part hmem ↦ parts_ofStr path part (List.mem_of_mem_drop hmem)
  refine ⟨_, htailParts.intercalate_ne_nil htail, ?_⟩
  calc path = (ofStr path).asPosix := h.1.symm
    _ = asPosix ⟨[], (ofStr path).parts⟩ := by rw [← hroot]
    _ = [sep].intercalate (ofStr path).parts := asPosix_relative hparts
    _ = [sep].intercalate ((ofStr path).parts.take k ++ (ofStr path).parts.drop k) := by
      rw [List.take_append_drop]
    _ = _ := by
      rw [intercalate_append hhead htail]
      rfl

end PurePosixPath

end PosixPath
