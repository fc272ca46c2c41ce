import Henret.Release.Stack

/-!
# What an accepted stack release guarantees

On an accepted run every package entry is added under its own name together
with its resolved manifest, so lookups by name return the entry and the
manifest that belong together.  An accepted stack is consistent but for the
two comparisons the verifier leaves out.
-/

namespace Henret.Release

open Outcome PyJson

section Consistency

variable {Bytes : Type} (F : Files Bytes) (inv : Invocation Bytes)

/-- A file of the manifest directory with digest `mh` holds `m`. -/
def Resolves (mh : Json) (m : Fields) : Prop :=
  ∃ file ∈ inv.manifestDir.files, mh = .str (F.sha256 file) ∧ F.loads file = .ok (.obj m)

/-- The package entries and dependency edges of the stack manifest. -/
def Lists (packages edges : List Fields) : Prop :=
  ∃ file stack, inv.stack = some file ∧ F.loads file = .ok (.obj stack) ∧
    (Fields.getD stack (lit "packages") (.arr [])).iterate = .ok (packages.map .obj) ∧
    (Fields.getD stack (lit "dependency_edges") (.arr [])).iterate = .ok (edges.map .obj)

/-- `m` declares `d` among its dependencies. -/
def DependsOn (m d : Fields) : Prop :=
  ∃ deps : List Fields, (m.getD (lit "dependencies") (.arr [])).iterate = .ok (deps.map .obj) ∧
    d ∈ deps

def TarballsMatch (packages : List Fields) : Prop :=
  ∀ p ∈ packages, ∀ m, Resolves F inv (p.get (lit "manifest_sha256")) m →
    (m.get (lit "tarball_sha256")).eq (p.get (lit "tarball_sha256")) = true

def ProviderVersionsMatch (packages edges : List Fields) : Prop :=
  ∀ e ∈ edges, ∀ p ∈ packages, (e.get (lit "provider")).eq (p.get (lit "package")) = true →
    (e.get (lit "provider_version")).eq (p.get (lit "version")) = true

structure Consistent (packages edges : List Fields) : Prop where
  unique : packages.Pairwise fun earlier later ↦
    (later.get (lit "package")).eq (earlier.get (lit "package")) = false
  resolves : ∀ p ∈ packages, ∃ m, Resolves F inv (p.get (lit "manifest_sha256")) m
  version : ∀ p ∈ packages, ∀ m, Resolves F inv (p.get (lit "manifest_sha256")) m →
    (m.get (lit "version")).eq (p.get (lit "version")) = true
  tarball : TarballsMatch F inv packages
  providerVersion : ProviderVersionsMatch packages edges
  dependency : ∀ e ∈ edges, ∃ c ∈ packages, ∃ p ∈ packages, ∃ m d,
    (e.get (lit "consumer")).eq (c.get (lit "package")) = true ∧
    (e.get (lit "provider")).eq (p.get (lit "package")) = true ∧
    Resolves F inv (c.get (lit "manifest_sha256")) m ∧ DependsOn m d ∧
    (d.get (lit "package")).eq (e.get (lit "provider")) = true ∧
    (d.get (lit "version")).eq (e.get (lit "provider_version")) = true ∧
    (d.get (lit "manifest_sha256")).eq (p.get (lit "manifest_sha256")) = true

variable {F inv}

/-- The digest determines the manifest. -/
theorem Resolves.unique {mh : Json} {m m' : Fields} (h : Resolves F inv mh m)
    (h' : Resolves F inv mh m') : m = m' := by
  obtain ⟨file, -, rfl, hm⟩ := h
  obtain ⟨file', -, hdigest, hm'⟩ := h'
  have hsame : file = file' := F.sha256_injective (Json.str.inj hdigest)
  rw [hsame, hm'] at hm
  cases hm
  rfl

theorem Lists.unique {packages packages' edges edges' : List Fields}
    (h : Lists F inv packages edges) (h' : Lists F inv packages' edges') :
    packages = packages' ∧ edges = edges' := by
  obtain ⟨file, stack, hfile, hstack, hpackages, hedges⟩ := h
  obtain ⟨file', stack', hfile', hstack', hpackages', hedges'⟩ := h'
  have hinj : Function.Injective (List.map Json.obj) :=
    List.map_injective_iff.mpr fun _ _ heq ↦ Json.obj.inj heq
  rw [hfile] at hfile'
  cases hfile'
  rw [hstack] at hstack'
  cases hstack'
  rw [hpackages] at hpackages'
  rw [hedges] at hedges'
  exact ⟨hinj (Except.ok.inj hpackages'), hinj (Except.ok.inj hedges')⟩

theorem mem_of_mem_indexByHash {directory : Directory Bytes} {digest : Str} {file : Bytes}
    (h : (digest, file) ∈ indexByHash F directory) :
    file ∈ directory.files ∧ digest = F.sha256 file := by
  have hfold : ∀ (files : List Bytes) (out : List (Str × Bytes)),
      (digest, file) ∈ files.foldl (fun out p ↦ (F.sha256 p, p) :: out) out →
      (digest, file) ∈ out ∨ (file ∈ files ∧ digest = F.sha256 file) := by
    intro files
    induction files with
    | nil => exact fun out hmem ↦ Or.inl hmem
    | cons p files ih =>
        intro out hmem
        rcases ih _ hmem with hin | ⟨hin, hdigest⟩
        · rcases List.mem_cons.mp hin with heq | hin
          · cases heq
            exact Or.inr ⟨by simp, rfl⟩
          · exact Or.inl hin
        · exact Or.inr ⟨List.mem_cons_of_mem p hin, hdigest⟩
  rcases hfold directory.files [] h with hnil | hmem
  · cases hnil
  · exact hmem

theorem resolve_some {mh : Json} {file : Bytes} {m : Fields} (h : resolve F inv mh = some file)
    (hm : F.loads file = .ok (.obj m)) : Resolves F inv mh m := by
  cases mh with
  | str digest =>
      obtain ⟨before, behind, hindex, -⟩ := List.lookup_eq_some_iff.mp h
      have hmem : (digest, file) ∈ indexByHash F inv.manifestDir := by
        rw [hindex]
        simp
      obtain ⟨hfile, rfl⟩ := mem_of_mem_indexByHash hmem
      exact ⟨file, hfile, rfl, hm⟩
  | _ => cases h

/-! ## The package loop -/

/-- What the loop has compared between an entry and its manifest. -/
structure Verified (F : Files Bytes) (inv : Invocation Bytes) (entry m : Fields) : Prop where
  resolves : Resolves F inv (entry.get (lit "manifest_sha256")) m
  package : (m.get (lit "package")).eq (entry.get (lit "package")) = true
  version : (m.get (lit "version")).eq (entry.get (lit "version")) = true

/-- The two dictionaries after entries that added no error. -/
structure Checked (F : Files Bytes) (inv : Invocation Bytes) (packages : List Fields)
    (st : State) : Prop where
  byName : st.byName = packages.map fun p ↦ (p.get (lit "package"), p)
  loaded : List.Forall₂ (fun p entry ↦ entry.1 = p.get (lit "package") ∧ Verified F inv p entry.2)
    packages st.loadedManifest
  unique : packages.Pairwise fun earlier later ↦
    (later.get (lit "package")).same (earlier.get (lit "package")) = false

theorem checked_nil (errors : List Str) : Checked F inv [] ⟨[], [], errors⟩ :=
  ⟨rfl, List.Forall₂.nil, List.Pairwise.nil⟩

theorem find_isSome {dict : List (Json × Fields)} {key : Json} :
    (find dict key).isSome = true ↔ ∃ entry ∈ dict, key.same entry.1 = true := by
  rw [find, Option.isSome_map, List.find?_isSome]

theorem addPackage_ok {T : PyText} {st st' : State} {name : Json} {entry : Fields}
    (h : addPackage T F inv st name entry = .ok st') (hok : st'.errors = [])
    (hname : entry.get (lit "package") = name) :
    st.errors = [] ∧ st'.byName = st.byName ++ [(name, entry)] ∧
    ∃ m, st'.loadedManifest = st.loadedManifest ++ [(name, m)] ∧ Verified F inv entry m := by
  obtain ⟨_, -, hbody⟩ := bind_ok_iff.mp h
  cases hresolve : resolve F inv (entry.get (lit "manifest_sha256")) with
  | none =>
      rw [hresolve] at hbody
      cases hbody
      simp at hok
  | some file =>
      simp only [hresolve, bind_ok_iff, pure_ok_iff, Json.asDict_ok_iff] at hbody
      obtain ⟨_, hloads, m, rfl, missing, -, rfl⟩ := hbody
      simp only [List.append_eq_nil_iff, manifestErrors, report_eq_nil_iff,
        Bool.not_eq_false'] at hok
      obtain ⟨hst, ⟨hpackage, hversion⟩, -⟩ := hok
      rw [← hname] at hpackage
      exact ⟨hst, rfl, m, rfl, ⟨resolve_some hresolve hloads, hpackage, hversion⟩⟩

theorem packageStep_ok {T : PyText} {st st' : State} {item : Json}
    (h : packageStep T F inv st item = .ok st') (hok : st'.errors = []) :
    st.errors = [] ∧ ∃ entry m : Fields, item = .obj entry ∧
      (∀ old ∈ st.byName, (entry.get (lit "package")).same old.1 = false) ∧
      st'.byName = st.byName ++ [(entry.get (lit "package"), entry)] ∧
      st'.loadedManifest = st.loadedManifest ++ [(entry.get (lit "package"), m)] ∧
      Verified F inv entry m := by
  simp only [packageStep, bind_ok_iff, Json.asDict_ok_iff] at h
  obtain ⟨entry, rfl, _, -, hbody⟩ := h
  split at hbody
  · cases hbody
    simp at hok
  · rename_i hnew
    obtain ⟨hst, hbyName, m, hloaded, hverified⟩ := addPackage_ok hbody hok rfl
    have hfresh : ∀ old ∈ st.byName, (entry.get (lit "package")).same old.1 = false := by
      intro old hold
      by_contra hsame
      exact hnew (find_isSome.mpr ⟨old, hold, Bool.eq_true_of_not_eq_false hsame⟩)
    exact ⟨hst, entry, m, rfl, hfresh, hbyName, hloaded, hverified⟩

theorem Checked.step {T : PyText} {packages : List Fields} {st st' : State} {item : Json}
    (hst : Checked F inv packages st) (h : packageStep T F inv st item = .ok st')
    (hok : st'.errors = []) :
    st.errors = [] ∧ ∃ entry, item = .obj entry ∧ Checked F inv (packages ++ [entry]) st' := by
  obtain ⟨herrors, entry, m, rfl, hfresh, hbyName, hloaded, hverified⟩ := packageStep_ok h hok
  refine ⟨herrors, entry, rfl, ⟨?_, ?_, ?_⟩⟩
  · rw [hbyName, hst.byName, List.map_append]
    rfl
  · rw [hloaded]
    exact List.rel_append hst.loaded (List.Forall₂.cons ⟨rfl, hverified⟩ List.Forall₂.nil)
  · rw [List.pairwise_append]
    refine ⟨hst.unique, List.pairwise_singleton _ _, ?_⟩
    intro p hp q hq
    rw [List.mem_singleton.mp hq]
    apply hfresh (p.get (lit "package"), p)
    rw [hst.byName]
    exact List.mem_map_of_mem hp

/-- Errors stay. -/
theorem errors_run {T : PyText} {items : List Json} {st st' : State}
    (h : items.foldlM (packageStep T F inv) st = .ok st') (hok : st'.errors = []) :
    st.errors = [] := by
  induction items generalizing st with
  | nil =>
      cases h
      exact hok
  | cons item items ih =>
      rw [List.foldlM_cons, bind_ok_iff] at h
      obtain ⟨mid, hstep, hrest⟩ := h
      exact (packageStep_ok hstep (ih hrest)).1

/-- A run of the package loop without an error checks every entry. -/
theorem Checked.run {T : PyText} {packages : List Fields} {items : List Json} {st st' : State}
    (hst : Checked F inv packages st) (h : items.foldlM (packageStep T F inv) st = .ok st')
    (hok : st'.errors = []) :
    ∃ entries : List Fields, items = entries.map .obj ∧
      Checked F inv (packages ++ entries) st' := by
  induction items generalizing packages st with
  | nil =>
      cases h
      exact ⟨[], rfl, by rwa [List.append_nil]⟩
  | cons item items ih =>
      rw [List.foldlM_cons, bind_ok_iff] at h
      obtain ⟨mid, hstep, hrest⟩ := h
      obtain ⟨-, entry, rfl, hmid⟩ := hst.step hstep (errors_run hrest hok)
      obtain ⟨entries, rfl, hchecked⟩ := ih hmid hrest
      refine ⟨entry :: entries, rfl, ?_⟩
      rwa [List.append_assoc, List.singleton_append] at hchecked

/-! ## Lookups after the loop -/

section Lookups

variable {packages : List Fields} {st : State}

theorem Checked.verified (h : Checked F inv packages st) {p : Fields} (hp : p ∈ packages) :
    ∃ m, Verified F inv p m := by
  obtain ⟨i, hi, rfl⟩ := List.getElem_of_mem hp
  have hlen : i < st.loadedManifest.length := by
    rw [← h.loaded.length_eq]
    exact hi
  exact ⟨_, (h.loaded.get hi hlen).2⟩

theorem Checked.find_byName (h : Checked F inv packages st) {key : Json} {p : Fields}
    (hfind : find st.byName key = some p) :
    p ∈ packages ∧ key.eq (p.get (lit "package")) = true := by
  obtain ⟨entry, hentry, rfl⟩ := Option.map_eq_some_iff.mp hfind
  have hmem := List.mem_of_find?_eq_some hentry
  have hsame := List.find?_some hentry
  rw [h.byName] at hmem
  obtain ⟨p, hp, rfl⟩ := List.mem_map.mp hmem
  obtain ⟨m, hm⟩ := h.verified hp
  exact ⟨hp, Json.eq_of_same hsame (Json.not_isNaN_of_eq hm.package)⟩

/-- Both dictionaries are searched by the same names. -/
theorem Checked.find_loaded (h : Checked F inv packages st) {key : Json} {p : Fields}
    (hfind : find st.byName key = some p) :
    ∃ m, find st.loadedManifest key = some m ∧ Verified F inv p m := by
  rw [h.byName] at hfind
  have hloaded := h.loaded
  revert hfind hloaded
  generalize st.loadedManifest = loaded
  intro hfind hloaded
  clear h
  induction hloaded with
  | nil => cases hfind
  | @cons q entry packages loaded hhead htail ih =>
      obtain ⟨name, m⟩ := entry
      obtain ⟨hname, hverified⟩ := hhead
      subst hname
      by_cases hsame : key.same (q.get (lit "package")) = true
      · simp only [find, List.map_cons, List.find?_cons, hsame, Option.map_some,
          Option.some.injEq] at hfind
        refine ⟨m, ?_, hfind ▸ hverified⟩
        simp only [find, List.find?_cons, hsame, Option.map_some]
      · simp only [find, List.map_cons, List.find?_cons, hsame] at hfind ih ⊢
        exact ih hfind

end Lookups

/-! ## The edge loop -/

theorem edgeErrors_nil {T : PyText} {packages : List Fields} {st : State} {item : Json}
    (hst : Checked F inv packages st) (h : edgeErrors T st item = .ok []) :
    ∃ e : Fields, item = .obj e ∧ ∃ c ∈ packages, ∃ p ∈ packages, ∃ m d,
      (e.get (lit "consumer")).eq (c.get (lit "package")) = true ∧
      (e.get (lit "provider")).eq (p.get (lit "package")) = true ∧
      Resolves F inv (c.get (lit "manifest_sha256")) m ∧ DependsOn m d ∧
      (d.get (lit "package")).eq (e.get (lit "provider")) = true ∧
      (d.get (lit "version")).eq (e.get (lit "provider_version")) = true ∧
      (d.get (lit "manifest_sha256")).eq (p.get (lit "manifest_sha256")) = true := by
  simp only [edgeErrors, bind_ok_iff, Json.asDict_ok_iff] at h
  obtain ⟨e, rfl, _, -, hbody⟩ := h
  refine ⟨e, rfl, ?_⟩
  split at hbody
  · rename_i c p hc hp
    obtain ⟨hcmem, hconsumer⟩ := hst.find_byName hc
    obtain ⟨hpmem, hprovider⟩ := hst.find_byName hp
    obtain ⟨m, hm, hverified⟩ := hst.find_loaded hc
    obtain ⟨pm, hpm⟩ := hst.verified hpmem
    simp only [resolvedEdgeErrors, hm, Option.getD_some, bind_ok_iff, pure_ok_iff,
      List.append_eq_nil_iff, report_eq_nil_iff, Bool.not_eq_false', List.any_eq_true,
      declares, Bool.and_eq_true] at hbody
    obtain ⟨deps, hdeps, declared, hdeclared, hhash, d, hd, ⟨hname, hversion⟩, hpin⟩ := hbody
    rw [Json.mapM_asDict_ok_iff.mp hdeclared] at hdeps
    obtain ⟨digest, hdigest⟩ : ∃ digest, p.get (lit "manifest_sha256") = .str digest := by
      obtain ⟨file, -, heq, -⟩ := hpm.resolves
      exact ⟨_, heq⟩
    rw [hdigest, Json.eq_str] at hhash
    rw [hhash, ← hdigest] at hpin
    exact ⟨c, hcmem, p, hpmem, m, d, hconsumer, hprovider, hverified.resolves,
      ⟨declared, hdeps, hd⟩, hname, hversion, hpin⟩
  · rename_i hnone
    simp only [pure_ok_iff, List.append_eq_nil_iff, report_eq_nil_iff,
      Option.isNone_eq_false_iff, Option.isSome_iff_exists] at hbody
    obtain ⟨⟨c, hc⟩, p, hp⟩ := hbody
    exact (hnone c p hc hp).elim

/-- An accepted run has checked every package entry and every edge. -/
theorem main_ok {T : PyText} (h : main T F inv = .ok 0) :
    ∃ packages edges st, Lists F inv packages edges ∧ Checked F inv packages st ∧
      ∀ e ∈ edges, edgeErrors T st (.obj e) = .ok [] := by
  cases hstack : inv.stack with
  | none =>
      rw [main, hstack] at h
      cases h
  | some file =>
      simp only [main, hstack, bind_ok_iff, Json.asDict_ok_iff, pure_ok_iff] at h
      obtain ⟨_, hloads, stack, rfl, items, hitems, st, hrun, edgeItems, hedgeItems, found, hfound,
        hexit⟩ := h
      have hnone : st.errors ++ found.flatten = [] := by
        by_contra hne
        rw [if_neg hne] at hexit
        cases hexit
      obtain ⟨herrors, hflat⟩ := List.append_eq_nil_iff.mp hnone
      obtain ⟨packages, rfl, hchecked⟩ := (checked_nil _).run hrun herrors
      rw [List.nil_append] at hchecked
      have hedge : ∀ item ∈ edgeItems, edgeErrors T st item = .ok [] := by
        intro item hitem
        obtain ⟨texts, htexts, hok⟩ := mapM_ok_mem hfound hitem
        rw [hok, List.flatten_eq_nil_iff.mp hflat texts htexts]
      obtain ⟨edges, rfl⟩ := Json.exists_dicts fun item hitem ↦ by
        obtain ⟨e, he, -⟩ := edgeErrors_nil hchecked (hedge item hitem)
        exact ⟨e, he⟩
      refine ⟨packages, edges, st, ⟨file, stack, hstack, hloads, hitems, hedgeItems⟩, hchecked, ?_⟩
      intro e he
      exact hedge (.obj e) (List.mem_map_of_mem he)

end Consistency

/-- An accepted stack release is consistent exactly when its tarball hashes agree
with the resolved manifests and its edges name their providers' versions. -/
theorem main_consistent_iff {Bytes : Type} (T : PyText) (F : Files Bytes) (inv : Invocation Bytes)
    (h : main T F inv = .ok 0) :
    (∃ packages edges, Lists F inv packages edges) ∧
    ∀ packages edges, Lists F inv packages edges →
      (Consistent F inv packages edges ↔
        TarballsMatch F inv packages ∧ ProviderVersionsMatch packages edges) := by
  obtain ⟨packages, edges, st, hlists, hchecked, hedge⟩ := main_ok h
  refine ⟨⟨packages, edges, hlists⟩, ?_⟩
  intro packages' edges' hlists'
  obtain ⟨rfl, rfl⟩ := hlists.unique hlists'
  refine ⟨fun hconsistent ↦ ⟨hconsistent.tarball, hconsistent.providerVersion⟩, ?_⟩
  rintro ⟨htarball, hversions⟩
  refine ⟨?_, ?_, ?_, htarball, hversions, ?_⟩
  · apply hchecked.unique.imp
    intro a b hab
    rw [Json.eq, hab]
    rfl
  · intro p hp
    obtain ⟨m, hm⟩ := hchecked.verified hp
    exact ⟨m, hm.resolves⟩
  · intro p hp m hresolves
    obtain ⟨m', hm'⟩ := hchecked.verified hp
    rw [hresolves.unique hm'.resolves]
    exact hm'.version
  · intro e he
    obtain ⟨e', heq, hedges⟩ := edgeErrors_nil hchecked (hedge e he)
    cases heq
    exact hedges

/-! ## Accepted stacks -/

/-- Files with their SHA-256 digests. -/
inductive Doc
  | henretTarball
  | laterTarball
  | iotaktTarball
  | henret
  | iotakt
  | staleIotakt
  | stack
  | swappedStack
  | staleStack
deriving DecidableEq

namespace Doc

instance : Fintype Doc where
  elems := {henretTarball, laterTarball, iotaktTarball, henret, iotakt, staleIotakt, stack,
    swappedStack, staleStack}
  complete := by
    intro doc
    cases doc <;> decide

def sha256 : Doc → Str
  | henretTarball => lit "b38cf4ed56657e2d13e0d5a4249056ee4cb2e4b491e80d6853368b006e7db8fb"
  | laterTarball => lit "e4665d61090a5178d363fc44368e7751facbae5d671625f38bc3d9c446ee5c7c"
  | iotaktTarball => lit "2a1519f108e9ad74de396334a08486a718d1dd334d75394735ed55aaf4ba986d"
  | henret => lit "0243c20d0e26bdb085302a62a1638dc52a32492d97a4e96d1fe37280a77b4530"
  | iotakt => lit "4e43eeb51bd06d8ddca8eca6e61621224351394696e7856795b7e2100f076e2f"
  | staleIotakt => lit "d6e6d78c76046993c08960267e3e1d01be7625a23bd35f82e478d689377b175d"
  | stack => lit "f84930a356e8111e47bb0acf3af4a7f1a6c2a13cec7f28a03416cbfea6a49908"
  | swappedStack => lit "cac9da34dd596063e469e1a2e25003f047f2770f3ea005bed266d01b9d5bf7f5"
  | staleStack => lit "fe3f4ea82d116deff7a95a761bcea0b6c050ca1baccdd8b77c48017765975112"

def henretFields : Fields :=
  [(lit "package", text "henret"), (lit "version", text "0.34.2"),
   (lit "tarball_sha256", .str henretTarball.sha256)]

/-- The manifest of iotakt, built against the given version of henret. -/
def iotaktFields (version : String) : Fields :=
  [(lit "package", text "iotakt"), (lit "version", text "0.2.0"),
   (lit "tarball_sha256", .str iotaktTarball.sha256),
   (lit "dependencies", .arr
     [.obj [(lit "package", text "henret"), (lit "version", text version),
       (lit "manifest_sha256", .str henret.sha256)]])]

def packageFields (name version : String) (tarball manifest : Doc) : Fields :=
  [(lit "package", text name), (lit "version", text version),
   (lit "tarball_sha256", .str tarball.sha256), (lit "manifest_sha256", .str manifest.sha256)]

def edgeFields (version : String) : Fields :=
  [(lit "consumer", text "iotakt"), (lit "provider", text "henret"),
   (lit "provider_version", text version), (lit "provider_manifest_sha256", .str henret.sha256)]

def stackFields (tarball manifest : Doc) (version : String) : Fields :=
  [(lit "stack_manifest_schema", .int 1),
   (lit "packages", .arr
     [.obj (packageFields "henret" "0.34.2" tarball henret),
      .obj (packageFields "iotakt" "0.2.0" iotaktTarball manifest)]),
   (lit "dependency_edges", .arr [.obj (edgeFields version)])]

def loads : Doc → Except Raised Json
  | henret => .ok (.obj henretFields)
  | iotakt => .ok (.obj (iotaktFields "0.34.2"))
  | staleIotakt => .ok (.obj (iotaktFields "0.34.1"))
  | stack => .ok (.obj (stackFields henretTarball iotakt "0.34.2"))
  | swappedStack => .ok (.obj (stackFields laterTarball iotakt "0.34.2"))
  | staleStack => .ok (.obj (stackFields henretTarball staleIotakt "0.34.1"))
  | _ => .error .valueError

def files : Files Doc where
  sha256 := sha256
  loads := loads
  sha256_injective := by
    unfold Function.Injective
    decide +kernel

def invocation (doc : Doc) : Invocation Doc where
  stack := some doc
  manifestDir := ⟨lit "manifests", [henret, iotakt, staleIotakt]⟩
  tarballDir := some ⟨lit "tarballs", [henretTarball, laterTarball, iotaktTarball]⟩

end Doc

theorem lists_invocation {doc tarball manifest : Doc} {version : String}
    (h : Doc.loads doc = .ok (.obj (Doc.stackFields tarball manifest version))) :
    Lists Doc.files (Doc.invocation doc)
      [Doc.packageFields "henret" "0.34.2" tarball .henret,
       Doc.packageFields "iotakt" "0.2.0" .iotaktTarball manifest]
      [Doc.edgeFields version] :=
  ⟨doc, _, rfl, h, rfl, rfl⟩

theorem main_consistent_iff_stack :
    (∃ packages edges, Lists Doc.files (Doc.invocation .stack) packages edges) ∧
    ∀ packages edges, Lists Doc.files (Doc.invocation .stack) packages edges →
      (Consistent Doc.files (Doc.invocation .stack) packages edges ↔
        TarballsMatch Doc.files (Doc.invocation .stack) packages ∧
          ProviderVersionsMatch packages edges) :=
  main_consistent_iff scalarText Doc.files (Doc.invocation .stack) (by decide +kernel)

/-- The entry of henret names another tarball than henret's manifest does. -/
theorem not_main_consistent :
    ¬ ∀ (Bytes : Type) (T : PyText) (F : Files Bytes) (inv : Invocation Bytes),
      main T F inv = .ok 0 →
      ∀ packages edges, Lists F inv packages edges → Consistent F inv packages edges := by
  intro h
  have hconsistent := h Doc scalarText Doc.files (Doc.invocation .swappedStack)
    (by decide +kernel) _ _ (lists_invocation rfl)
  have hsame := hconsistent.tarball _ (List.mem_cons_self ..) Doc.henretFields
    ⟨.henret, by decide, rfl, rfl⟩
  revert hsame
  decide +kernel

/-- An accepted edge may name another version than the provider's entry does. -/
theorem staleStack_accepted : main scalarText Doc.files (Doc.invocation .staleStack) = .ok 0 ∧
    ∀ packages edges, Lists Doc.files (Doc.invocation .staleStack) packages edges →
      ¬ ProviderVersionsMatch packages edges := by
  refine ⟨by decide +kernel, ?_⟩
  intro packages edges hlists hversions
  obtain ⟨rfl, rfl⟩ := (lists_invocation rfl).unique hlists
  have hsame := hversions _ (List.mem_cons_self ..) _ (List.mem_cons_self ..) (by decide +kernel)
  revert hsame
  decide +kernel

end Henret.Release
