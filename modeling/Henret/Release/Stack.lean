import Henret.Lib.PyJson

/-!
# Verifying a stack release

A stack manifest names its packages by the hashes of their manifests and pins
the dependency edges between them.  The verifier resolves every manifest by
hash, compares names and versions, and looks up every edge in the consumer's
manifest.  It never compares an entry's tarball hash with the resolved
manifest, nor an edge's provider version with the provider's entry.
-/

namespace Henret.Release

open Outcome PyJson

/-- The digest of a file and the JSON value read from it. -/
structure Files (Bytes : Type) where
  sha256 : Bytes → Str
  loads : Bytes → Except Raised Json
  sha256_injective : Function.Injective sha256

/-- A directory argument with the readable files its pattern matches. -/
structure Directory (Bytes : Type) where
  path : Str
  files : List Bytes

/-- The files that the arguments name; `none` for a missing file or no third argument. -/
structure Invocation (Bytes : Type) where
  stack : Option Bytes
  manifestDir : Directory Bytes
  tarballDir : Option (Directory Bytes)

section Verifier

variable {Bytes : Type} (T : PyText) (F : Files Bytes) (inv : Invocation Bytes)

/-- Of files with one digest the last one stays. -/
def indexByHash (directory : Directory Bytes) : List (Str × Bytes) :=
  directory.files.foldl (fun out p ↦ (F.sha256 p, p) :: out) []

/-- A dictionary's value for a key. -/
def find (dict : List (Json × Fields)) (key : Json) : Option Fields :=
  (dict.find? fun entry ↦ key.same entry.1).map Prod.snd

structure State where
  byName : List (Json × Fields)
  loadedManifest : List (Json × Fields)
  errors : List Str

def tarballErrors (name : Json) (entry : Fields) : Except Raised (List Str) :=
  match inv.tarballDir with
  | none => .ok []
  | some directory => do
      let th := entry.get (lit "tarball_sha256")
      raiseIf (¬ th.hashable = true) .typeError
      return report (!(indexByHash F directory).any fun file ↦ th.same (.str file.1))
        (T.str name ++ lit ": tarball_sha256 " ++ T.str th ++ lit " not found in " ++
          directory.path)

def manifestErrors (name : Json) (entry m : Fields) : List Str :=
  report (!(m.get (lit "package")).eq name)
    (T.str name ++ lit ": manifest package is " ++ T.repr (m.get (lit "package"))) ++
  report (!(m.get (lit "version")).eq (entry.get (lit "version")))
    (T.str name ++ lit ": version " ++ T.repr (entry.get (lit "version")) ++
      lit " != manifest " ++ T.repr (m.get (lit "version")))

def resolve (mh : Json) : Option Bytes :=
  match mh with
  | .str digest => (indexByHash F inv.manifestDir).lookup digest
  | _ => none

/-- The package loop's body for an entry whose name is new. -/
def addPackage (st : State) (name : Json) (entry : Fields) : Except Raised State := do
  let mh := entry.get (lit "manifest_sha256")
  raiseIf (¬ mh.hashable = true) .typeError
  let byName := st.byName ++ [(name, entry)]
  match resolve F inv mh with
  | none =>
      return { st with
        byName := byName
        errors := st.errors ++ [T.str name ++ lit ": manifest_sha256 " ++ T.str mh ++
          lit " not found in " ++ inv.manifestDir.path] }
  | some file =>
      let value ← F.loads file
      let m ← value.asDict
      let missing ← tarballErrors T F inv name entry
      return {
        byName := byName
        loadedManifest := st.loadedManifest ++ [(name, m)]
        errors := st.errors ++ (manifestErrors T name entry m ++ missing) }

def packageStep (st : State) (item : Json) : Except Raised State := do
  let entry ← item.asDict
  let name := entry.get (lit "package")
  raiseIf (¬ name.hashable = true) .typeError
  if (find st.byName name).isSome then
    return { st with errors := st.errors ++ [lit "duplicate package in stack: " ++ T.repr name] }
  else addPackage T F inv st name entry

def declares (edge : Fields) (d : Fields) : Bool :=
  (d.get (lit "package")).eq (edge.get (lit "provider")) &&
  (d.get (lit "version")).eq (edge.get (lit "provider_version")) &&
  (d.get (lit "manifest_sha256")).eq (edge.get (lit "provider_manifest_sha256"))

/-- The edge loop's body for an edge between two package entries. -/
def resolvedEdgeErrors (st : State) (edge providerEntry : Fields) : Except Raised (List Str) := do
  let consumer := edge.get (lit "consumer")
  let provider := edge.get (lit "provider")
  let name := lit "edge " ++ T.str consumer ++ lit "->" ++ T.str provider
  let cm := (find st.loadedManifest consumer).getD []
  let deps ← (cm.getD (lit "dependencies") (.arr [])).iterate
  let declared ← deps.mapM Json.asDict
  return report (!(edge.get (lit "provider_manifest_sha256")).eq
      (providerEntry.get (lit "manifest_sha256")))
      (name ++ lit ": provider_manifest_sha256 != provider package entry manifest_sha256") ++
    report (!declared.any (declares edge))
      (name ++ lit " (" ++ T.str (edge.get (lit "provider_version")) ++
        lit ") has no matching dependency in " ++ T.str consumer ++ lit "'s manifest")

def edgeErrors (st : State) (item : Json) : Except Raised (List Str) := do
  let edge ← item.asDict
  let consumer := edge.get (lit "consumer")
  let provider := edge.get (lit "provider")
  raiseIf (¬ (consumer.hashable && provider.hashable) = true) .typeError
  match find st.byName consumer, find st.byName provider with
  | some _, some providerEntry => resolvedEdgeErrors T st edge providerEntry
  | consumerEntry, providerEntry =>
      return report consumerEntry.isNone
          (lit "edge consumer " ++ T.repr consumer ++ lit " not a package entry") ++
        report providerEntry.isNone
          (lit "edge provider " ++ T.repr provider ++ lit " not a package entry")

def schemaErrors (stack : Fields) : List Str :=
  report (!(stack.get (lit "stack_manifest_schema")).eq (.int 1))
    (lit "unexpected stack_manifest_schema: " ++ T.repr (stack.get (lit "stack_manifest_schema")))

/-- The exit code. -/
def main : Except Raised ℕ :=
  match inv.stack with
  | none => .ok 2
  | some file => do
      let value ← F.loads file
      let stack ← value.asDict
      let packages ← (stack.getD (lit "packages") (.arr [])).iterate
      let st ← packages.foldlM (packageStep T F inv) ⟨[], [], schemaErrors T stack⟩
      let edges ← (stack.getD (lit "dependency_edges") (.arr [])).iterate
      let found ← edges.mapM (edgeErrors T st)
      return if st.errors ++ found.flatten = [] then 0 else 1

end Verifier

end Henret.Release
