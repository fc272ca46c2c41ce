import Henret.Lib.PyJson

/-!
# The shape of the supply-chain policy

The policy pins every action to a commit and every downloaded tool to an
archive digest, and lists which tools each workflow uses.
-/

namespace Henret.Release

open PyJson PyStr

def slash : CodePoint := CodePoint.ofChar '/'

/-- The components of a `PurePosixPath` behind its root. -/
def pathParts (s : Str) : List Str :=
  (s.splitOn slash).filter fun part ↦ decide (part ≠ [] ∧ part ≠ lit ".")

def isAbsolute (s : Str) : Bool := s.head? == some slash

def pathName (s : Str) : Str := (pathParts s).getLast?.getD []

/-- `s.lower()` on ASCII; no other character lowers to a letter of the word looked for. -/
def lower (s : Str) : Str :=
  s.map fun c ↦
    if h : 65 ≤ c.val ∧ c.val ≤ 90 then ⟨c.val + 32, by omega⟩ else c

def contains (hay needle : Str) : Bool := decide (needle <:+: hay)

def isNonEmptyStr : Json → Bool
  | .str s => decide (s ≠ [])
  | _ => false

/-- `isinstance(value, str) and p(value)`. -/
def strAnd (p : Str → Bool) : Json → Bool
  | .str s => p s
  | _ => false

def actionErrors (name : Str) (pin : Json) : List Str :=
  report (decide (name = [])) (lit "action names must be non-empty strings") ++
  match pin with
  | .obj fields =>
      if sameSet (Fields.keys fields) [lit "version", lit "commit"] then
        report (!Json.isHex 40 (Fields.get fields (lit "commit")))
          (lit "action " ++ name ++ lit " lacks a full lowercase commit SHA") ++
        report (!strAnd (fun s ↦ (lit "v").isPrefixOf s) (Fields.get fields (lit "version")))
          (lit "action " ++ name ++ lit " lacks a human-readable version")
      else [lit "action " ++ name ++ lit " pin must contain exactly version/commit"]
  | _ => [lit "action " ++ name ++ lit " pin must contain exactly version/commit"]

def allowedToolKeys : List Str :=
  [lit "version", lit "url", lit "sha256", lit "archive", lit "binary", lit "platform"]

def toolErrors (T : PyText) (name : Str) (pin : Json) : List Str :=
  report (decide (name = [])) (lit "tool names must be non-empty strings") ++
  match pin with
  | .obj fields =>
      let version := Fields.get fields (lit "version")
      let url := Fields.get fields (lit "url")
      let archive := Fields.get fields (lit "archive")
      let binary := Fields.get fields (lit "binary")
      report (!strAnd (fun v ↦ strAnd (fun u ↦ contains u v) url) version)
        (lit "tool " ++ name ++ lit " URL is not bound to its exact version") ++
      report (contains (lower (T.str url)) (lit "latest"))
        (lit "tool " ++ name ++ lit " URL uses latest") ++
      report (!Json.isHex 64 (Fields.get fields (lit "sha256")))
        (lit "tool " ++ name ++ lit " lacks a full lowercase SHA-256") ++
      report (!(archive.same (.str (lit "tar.gz")) || archive.same (.str (lit "zip"))))
        (lit "tool " ++ name ++ lit " archive must be tar.gz or zip") ++
      report (!strAnd (fun b ↦ decide (b ≠ []) && !isAbsolute b && decide (lit ".." ∉ pathParts b))
          binary)
        (lit "tool " ++ name ++ lit " binary must be a safe relative path") ++
      report (!(Fields.keys fields).all (fun key ↦ decide (key ∈ allowedToolKeys)) ||
          decide (lit "platform" ∈ Fields.keys fields) &&
            !isNonEmptyStr (Fields.get fields (lit "platform")))
        (lit "tool " ++ name ++ lit " contains invalid policy fields")
  | _ => [lit "tool " ++ name ++ lit " policy must be an object"]

def isWorkflowFile (filename : Str) : Bool :=
  decide (pathName filename = filename) &&
    ((lit ".yml").isSuffixOf filename || (lit ".yaml").isSuffixOf filename)

def workflowErrors (T : PyText) (tools : List Str) (filename : Str) (required : Json) : List Str :=
  match required with
  | .arr names =>
      if isWorkflowFile filename && names.all Json.isStr &&
          names.length == (Json.distinct names).length then
        report (!names.all fun name ↦ strAnd (fun s ↦ decide (s ∈ tools)) name)
          (lit "workflow_tools entry " ++ T.repr (.str filename) ++ lit " names an unknown tool")
      else [lit "workflow_tools entry " ++ T.repr (.str filename) ++
        lit " must be a unique string list"]
  | _ => [lit "workflow_tools entry " ++ T.repr (.str filename) ++
      lit " must be a unique string list"]

def digestErrors (T : PyText) (filename : Str) (digest : Json) : List Str :=
  report (!Json.isHex 64 digest)
    (lit "workflow_sha256 entry " ++ T.repr (.str filename) ++ lit " is invalid")

def policyKeys : List Str :=
  [lit "schema", lit "actions", lit "tools", lit "workflow_tools", lit "workflow_sha256"]

def validatePolicyShape (T : PyText) (policy : Json) : List Str :=
  match policy with
  | .obj fields =>
      let schema := Fields.get fields (lit "schema")
      if !(schema.isInt && schema.eq (.int 1)) then
        [lit "policy root/schema must be object/schema 1"]
      else
        report (!sameSet (Fields.keys fields) policyKeys)
          (lit "policy keys must be exactly schema/actions/tools/workflow_tools/workflow_sha256") ++
        match Fields.get fields (lit "actions"), Fields.get fields (lit "tools"),
          Fields.get fields (lit "workflow_tools"), Fields.get fields (lit "workflow_sha256") with
        | .obj actions, .obj tools, .obj workflowTools, .obj workflowSha256 =>
            actions.flatMap (fun pin ↦ actionErrors pin.1 pin.2) ++
            tools.flatMap (fun pin ↦ toolErrors T pin.1 pin.2) ++
            workflowTools.flatMap
              (fun entry ↦ workflowErrors T (Fields.keys tools) entry.1 entry.2) ++
            report (!sameSet (Fields.keys workflowSha256) (Fields.keys workflowTools))
              (lit "workflow_sha256 and workflow_tools file sets disagree") ++
            workflowSha256.flatMap (fun entry ↦ digestErrors T entry.1 entry.2)
        | _, _, _, _ =>
            [lit "policy actions, tools, workflow_tools, and workflow_sha256 must be objects"]
  | _ => [lit "policy root/schema must be object/schema 1"]

end Henret.Release
