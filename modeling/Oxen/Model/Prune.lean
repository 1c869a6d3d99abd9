import Oxen.Model.CommitHistory
import Oxen.Model.CommitWriter
import Oxen.Model.VersionStore

/-! Pruning the nodes and the stored versions that no listed commit refers to. -/

namespace Oxen

open Commits

structure PruneStats where
  nodesScanned : ℕ := 0
  nodesKept : ℕ := 0
  nodesRemoved : ℕ := 0
  versionsScanned : ℕ := 0
  versionsKept : ℕ := 0
  versionsRemoved : ℕ := 0
  bytesFreed : ℕ := 0
deriving DecidableEq, Repr

/-- The commit that a workspace was made from and its staged entries, whose versions
are in the store of the repository. -/
structure Workspace where
  commitId : String
  staged : StagedDb := ∅

/-- The directories of the node database and of the version store, with all that
refers to them. -/
structure PrunableRepository where
  nodes : KeyedMap.Map MerkleHash NodeDb := ∅
  versions : KeyedMap.Map MerkleHash VersionDir := ∅
  refs : Refs := {}
  staged : StagedDb := ∅
  workspaces : List Workspace := []

def PrunableRepository.db (repo : PrunableRepository) : NodeStore :=
  repo.nodes.lookup

/-- Adds the history of a commit. -/
def listAllRecursive (db : NodeStore) (fuel : ℕ) (commit : CommitNode)
    (commits : List CommitNode) : Option (List CommitNode) :=
  (listRecursivePaginated db fuel commit 0 usizeMax none none).map fun (results, _) =>
    commits ∪ results

def listBranch (db : NodeStore) (fuel : ℕ) (commits : List CommitNode)
    (branch : String × String) : Option (List CommitNode) :=
  match getById db branch.2 with
  | none => some commits
  | some commit => listAllRecursive db fuel commit commits

/-- The commits of all branches. -/
def listAll (db : NodeStore) (fuel : ℕ) (refs : Refs) : Option (List CommitNode) :=
  (KeyedMap.toList refs.branches).foldlM (listBranch db fuel) []

structure ReferencedHashes where
  nodes : List MerkleHash := []
  versions : List MerkleHash := []

def ReferencedHashes.insert (referenced : ReferencedHashes) (node : EMerkleTreeNode) :
    ReferencedHashes where
  nodes := node.hash :: referenced.nodes
  versions :=
    match node with
    | .file f => f.hash :: referenced.versions
    | _ => referenced.versions

mutual

def collectNodeHashes : MerkleTreeNode → ReferencedHashes → ReferencedHashes
  | .mk n cs, referenced => collectChildHashes cs (referenced.insert n)

def collectChildHashes : List MerkleTreeNode → ReferencedHashes → ReferencedHashes
  | [], referenced => referenced
  | c :: cs, referenced => collectChildHashes cs (collectNodeHashes c referenced)

end

def getRootWithChildren (db : NodeStore) (fuel : ℕ) (commit : CommitNode) :
    Option MerkleTreeNode :=
  (rootWithChildrenAndNodeHashes db [] fuel commit.hash).map (·.tree)

def collectCommit (db : NodeStore) (fuel : ℕ) (referenced : ReferencedHashes)
    (commit : CommitNode) : ReferencedHashes :=
  match getRootWithChildren db fuel commit with
  | none => referenced
  | some root => collectNodeHashes root referenced

def collectReferencedHashes (repo : PrunableRepository) (fuel : ℕ) : Option ReferencedHashes :=
  (listAll repo.db fuel repo.refs).map fun allCommits =>
    allCommits.foldl (collectCommit repo.db fuel) {}

def pruneNode (referenced : List MerkleHash) (dryRun : Bool)
    (s : KeyedMap.Map MerkleHash NodeDb × PruneStats) (hash : MerkleHash) :
    KeyedMap.Map MerkleHash NodeDb × PruneStats :=
  let stats := { s.2 with nodesScanned := s.2.nodesScanned + 1 }
  if hash ∈ referenced then (s.1, { stats with nodesKept := stats.nodesKept + 1 })
  else
    (if dryRun then s.1 else s.1.erase hash, { stats with nodesRemoved := stats.nodesRemoved + 1 })

def pruneNodes (nodes : KeyedMap.Map MerkleHash NodeDb) (referenced : List MerkleHash)
    (stats : PruneStats) (dryRun : Bool) : KeyedMap.Map MerkleHash NodeDb × PruneStats :=
  nodes.keys.foldl (pruneNode referenced dryRun) (nodes, stats)

/-- The size of the `data` file, if there is one. -/
def getVersionSize (versions : KeyedMap.Map MerkleHash VersionDir) (hash : MerkleHash) :
    Option ℕ :=
  ((versions.lookup hash).bind (·.data)).map List.length

def pruneVersion (referenced : List MerkleHash) (dryRun : Bool)
    (s : KeyedMap.Map MerkleHash VersionDir × PruneStats) (hash : MerkleHash) :
    KeyedMap.Map MerkleHash VersionDir × PruneStats :=
  if hash ∈ referenced then (s.1, { s.2 with versionsKept := s.2.versionsKept + 1 })
  else
    (if dryRun then s.1 else s.1.erase hash,
      { s.2 with
        versionsRemoved := s.2.versionsRemoved + 1
        bytesFreed := s.2.bytesFreed + (getVersionSize s.1 hash).getD 0 })

def pruneVersions (versions : KeyedMap.Map MerkleHash VersionDir) (referenced : List MerkleHash)
    (stats : PruneStats) (dryRun : Bool) : KeyedMap.Map MerkleHash VersionDir × PruneStats :=
  versions.keys.foldl (pruneVersion referenced dryRun)
    (versions, { stats with versionsScanned := versions.keys.length })

def prune (repo : PrunableRepository) (fuel : ℕ) (dryRun : Bool) :
    Option (PruneStats × PrunableRepository) :=
  (collectReferencedHashes repo fuel).map fun referenced =>
    let (nodes, stats) := pruneNodes repo.nodes referenced.nodes {} dryRun
    let (versions, stats) := pruneVersions repo.versions referenced.versions stats dryRun
    (stats, { repo with nodes, versions })

end Oxen
