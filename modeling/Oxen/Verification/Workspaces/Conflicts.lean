import Oxen.Model.Mergeability
import Oxen.Verification.History.Pages
import Oxen.Verification.Tree.FileMap
import Oxen.Verification.Tree.Search

/-! The conflicts of a workspace with a branch are the staged files that differ, except those
that one side does not have. -/

namespace Oxen

open MerkleTreeNode Commits

/-! ## What is at a path -/

/-- The hash of what an entry is: for a file its contents and its metadata. -/
def EMerkleTreeNode.identity : EMerkleTreeNode → MerkleHash
  | .file f => f.combinedHash
  | node => node.hash

namespace CommitTree

variable {db : NodeStore} (t : CommitTree db) {path : PathBuf} {e : EMerkleTreeNode}

/-- The file or directory of the commit at each path. -/
def entryMap : KeyedMap.Map PathBuf EMerkleTreeNode :=
  KeyedMap.insertAll ∅ (t.tree.entries [])

def identityAt (path : PathBuf) : Option MerkleHash :=
  (t.entryMap.lookup path).map EMerkleTreeNode.identity

theorem lookup_entryMap_iff (huniq : UniquePaths [] t.tree) :
    t.entryMap.lookup path = some e ↔ (path, e) ∈ t.tree.entries [] :=
  KeyedMap.lookup_insertAll_empty_iff huniq

/-- A search finds what the commit has at the path. -/
theorem getByPath_eq (huniq : UniquePaths [] t.tree) (path : PathBuf) :
    (t.tree.getByPath path).map MerkleTreeNode.node = t.entryMap.lookup path := by
  have hleafy := t.stored_tree.held.leafy
  have hroot : traversedTo [] t.tree = [] := rfl
  have hfound := hleafy.getByPathHelper_isSome [] path
  rw [hroot] at hfound
  apply Option.ext
  intro e
  rw [t.lookup_entryMap_iff huniq, Option.map_eq_some_iff]
  constructor
  · rintro ⟨u, hu, rfl⟩
    rcases hleafy.mem_subtrees_of_getByPathHelper hu with ⟨q, hq, he⟩
    exact mem_entries_of_mem_subtrees hq he
  · intro he
    rcases Option.isSome_iff_exists.mp (hfound.mpr ⟨e, he⟩) with ⟨u, hu⟩
    rcases hleafy.mem_subtrees_of_getByPathHelper hu with ⟨q, hq, hnode⟩
    exact ⟨u, hu, huniq.eq_of_mem (mem_entries_of_mem_subtrees hq hnode) he⟩

theorem load_rootWithChildren {fuel : ℕ} (hf : t.tree.size ≤ fuel) :
    ∃ loaded, rootWithChildrenAndNodeHashes db [] fuel t.commit.hash = some loaded ∧
      loaded.tree = t.tree :=
  ⟨_, t.load_nodeHashes [] hf, t.stored_tree.prune_nil⟩

theorem getById_commit : getById db t.commit.hash.display = some t.commit := by
  rcases (stored_container rfl _).mp t.stored with ⟨⟨⟨node, children⟩, hr, hn, -⟩, -⟩
  obtain rfl : node = .commit t.commit := hn
  rw [getById_display, getByHash, show db t.commit.hash = some _ from hr]

end CommitTree

namespace Workspaces

open WorkspaceCommit Steps

/-! ## The list of conflicts -/

/-- The files that are staged. -/
def stagedFiles (dirEntries : DirEntries) : List PathBuf :=
  (CommitWriter.allStaged dirEntries).filterMap fun entry =>
    match entry.node with
    | .file f => some f.name
    | _ => none

variable {db : NodeStore} {w b : CommitTree db} {p : PathBuf}

/-- Both commits have something at the path, with different hashes. -/
def HashesDiffer (w b : CommitTree db) (p : PathBuf) : Prop :=
  ∃ e e', w.entryMap.lookup p = some e ∧ b.entryMap.lookup p = some e' ∧ e.hash ≠ e'.hash

/-- One of the commits has something at the path only if the other one does, and then their
hashes tell them apart. -/
def Comparable (w b : CommitTree db) (p : PathBuf) : Prop :=
  (w.entryMap.lookup p).isSome = (b.entryMap.lookup p).isSome ∧
    ∀ e e', w.entryMap.lookup p = some e → b.entryMap.lookup p = some e' →
      (e.hash = e'.hash ↔ e.identity = e'.identity)

theorem hashesDiffer_iff_of_comparable (h : Comparable w b p) :
    HashesDiffer w b p ↔ w.identityAt p ≠ b.identityAt p := by
  unfold CommitTree.identityAt
  constructor
  · rintro ⟨e, e', he, he', hne⟩ heq
    rw [he, he'] at heq
    exact hne ((h.2 e e' he he').mpr (Option.some.inj heq))
  · intro hne
    rcases hw : w.entryMap.lookup p with _ | e
    · have hb : b.entryMap.lookup p = none := by
        rw [← Option.not_isSome_iff_eq_none, ← h.1, hw]
        decide
      rw [hw, hb] at hne
      exact absurd rfl hne
    · have hsome : (b.entryMap.lookup p).isSome := by rw [← h.1, hw]; rfl
      rcases Option.isSome_iff_exists.mp hsome with ⟨e', hb⟩
      refine ⟨e, e', hw, hb, fun heq => hne ?_⟩
      rw [hw, hb, Option.map_some, Option.map_some, (h.2 e e' hw hb).mp heq]

theorem comparable_of_hashesDiffer_iff
    (h : HashesDiffer w b p ↔ w.identityAt p ≠ b.identityAt p) : Comparable w b p := by
  unfold CommitTree.identityAt at h
  have hsome : ∀ e e', w.entryMap.lookup p = some e → b.entryMap.lookup p = some e' →
      (HashesDiffer w b p ↔ e.hash ≠ e'.hash) := by
    intro e e' he he'
    constructor
    · rintro ⟨f, f', hf, hf', hne⟩
      obtain rfl := Option.some.inj (he.symm.trans hf)
      obtain rfl := Option.some.inj (he'.symm.trans hf')
      exact hne
    · exact fun hne => ⟨e, e', he, he', hne⟩
  constructor
  · by_contra hne
    have hdiff : ¬ HashesDiffer w b p := by
      rintro ⟨e, e', he, he', -⟩
      exact hne (by rw [he, he']; rfl)
    apply hne
    rw [h, not_not] at hdiff
    simpa using congrArg Option.isSome hdiff
  · intro e e' he he'
    rw [hsome e e' he he', he, he'] at h
    simpa using not_congr h

/-- What the list says about one staged entry. -/
theorem conflictOf_iff (hw : UniquePaths [] w.tree) (hb : UniquePaths [] b.tree)
    (path : PathBuf) :
    (match b.tree.getByPath path, w.tree.getByPath path with
      | some branchNode, some workspaceNode =>
          if branchNode.hash = workspaceNode.hash then none else some path
      | _, _ => none) = some p ↔ path = p ∧ HashesDiffer w b p := by
  have hbranch := b.getByPath_eq hb path
  have hworkspace := w.getByPath_eq hw path
  unfold HashesDiffer
  rcases hbget : b.tree.getByPath path with _ | branchNode
  · rw [hbget] at hbranch
    constructor
    · intro h
      cases h
    · rintro ⟨rfl, e, e', -, he', -⟩
      rw [← hbranch] at he'
      cases he'
  · rcases hwget : w.tree.getByPath path with _ | workspaceNode
    · rw [hwget] at hworkspace
      constructor
      · intro h
        cases h
      · rintro ⟨rfl, e, e', he, -, -⟩
        rw [← hworkspace] at he
        cases he
    · rw [hbget] at hbranch
      rw [hwget] at hworkspace
      by_cases hhash : branchNode.hash = workspaceNode.hash
      · dsimp only
        rw [if_pos hhash]
        constructor
        · intro h
          cases h
        · rintro ⟨rfl, e, e', he, he', hne⟩
          rw [← hworkspace] at he
          rw [← hbranch] at he'
          obtain rfl := Option.some.inj he
          obtain rfl := Option.some.inj he'
          exact absurd hhash.symm hne
      · dsimp only
        rw [if_neg hhash, Option.some.injEq]
        refine ⟨fun h => ⟨h, ?_⟩, And.left⟩
        obtain rfl := h
        exact ⟨_, _, hworkspace.symm, hbranch.symm, fun h => hhash h.symm⟩

theorem not_hashesDiffer_of_hash_eq (h : b.commit.hash = w.commit.hash) :
    ¬ HashesDiffer w b p := by
  rintro ⟨e, e', he, he', hne⟩
  have htree : b.tree = w.tree := b.stored_tree.eq_of_hash w.stored_tree rfl rfl h
  rw [CommitTree.entryMap, htree] at he'
  obtain rfl := Option.some.inj (he.symm.trans he')
  exact hne rfl

theorem mem_conflicts_iff (hw : UniquePaths [] w.tree) (hb : UniquePaths [] b.tree)
    (dirEntries : DirEntries) (branchName : String) {fuel : ℕ} (hfw : w.tree.size ≤ fuel)
    (hfb : b.tree.size ≤ fuel) :
    ∃ conflicts,
      listConflicts db fuel w.commit dirEntries ⟨branchName, b.commit.hash.display⟩ = .ok conflicts ∧
      ∀ p, p ∈ conflicts ↔ p ∈ stagedFiles dirEntries ∧ HashesDiffer w b p := by
  rcases w.load_rootWithChildren hfw with ⟨workspaceTree, hwload, hwtree⟩
  rcases b.load_rootWithChildren hfb with ⟨branchTree, hbload, hbtree⟩
  unfold listConflicts
  simp only [b.getById_commit]
  by_cases hid : b.commit.hash.display = w.commit.hash.display
  · rw [if_pos hid]
    have hhash := congrArg MerkleHash.parse hid
    rw [MerkleHash.parse_display, MerkleHash.parse_display, Option.some.injEq] at hhash
    refine ⟨[], rfl, fun p => ?_⟩
    constructor
    · intro hp
      cases hp
    · exact fun h => absurd h.2 (not_hashesDiffer_of_hash_eq hhash)
  · rw [if_neg hid]
    simp only [hbload, hwload, hbtree, hwtree]
    refine ⟨_, rfl, fun p => ?_⟩
    rw [stagedFiles, List.mem_filterMap, List.mem_filterMap]
    constructor
    · rintro ⟨entry, hentry, hp⟩
      rcases entry with ⟨status, node⟩
      cases node with
      | file f =>
          rcases (conflictOf_iff hw hb f.name).mp hp with ⟨rfl, hdiffer⟩
          exact ⟨⟨_, hentry, rfl⟩, hdiffer⟩
      | directory d => cases hp
      | vnode v => cases hp
      | commit c => cases hp
    · rintro ⟨⟨entry, hentry, hp⟩, hdiffer⟩
      rcases entry with ⟨status, node⟩
      cases node with
      | file f =>
          obtain rfl := Option.some.inj hp
          exact ⟨_, hentry, (conflictOf_iff hw hb f.name).mpr ⟨rfl, hdiffer⟩⟩
      | directory d => cases hp
      | vnode v => cases hp
      | commit c => cases hp

/-! ## What follows from the list -/

variable {Value : Type}

theorem mergeability_ok {iter : List MerkleHash → List MerkleHash} {s : Repository} {fuel : ℕ}
    {base : CommitNode} {staged : StagedDb} {branchName commitId : String} {conflicts : List PathBuf}
    {m : Mergeable} (hbranch : s.refs.branches.lookup branchName = some commitId)
    (hlist : listConflicts s.db fuel base (CommitWriter.readStagedEntries staged)
      ⟨branchName, commitId⟩ = .ok conflicts)
    (h : mergeability iter s fuel base staged branchName = some (.ok m)) :
    m.conflicts = conflicts.map PathBuf.display ∧ (m.isMergeable = true ↔ conflicts = []) := by
  have hname : Branches.getByName s.refs branchName = .ok ⟨branchName, commitId⟩ := by
    rw [Branches.getByName, hbranch]
  unfold mergeability at h
  simp only [hname] at h
  split at h
  · cases h
  · split at h
    · cases h
    · cases h
    · simp only [hlist] at h
      obtain rfl := Except.ok.inj (Option.some.inj h)
      exact ⟨rfl, decide_eq_true_iff⟩

/-- Up to its export a commit only reads: the branch, what is staged and the conflicts. -/
theorem prepare_eq {env : Env Value} {s : State Value} {fuel : ℕ}
    {workspace : WorkspaceCommit.Workspace} {staged : StagedDb} {branchName commitId : String}
    {conflicts : List PathBuf}
    (hstaged : s.staged = .db staged)
    (hbranch : s.repo.refs.branches.lookup branchName = some commitId)
    (hlist : listConflicts s.repo.db fuel workspace.commit (CommitWriter.readStagedEntries staged)
      ⟨branchName, commitId⟩ = .ok conflicts) :
    prepare env fuel workspace branchName s =
      if conflicts = [] then
        exportTabularDataFrames env (CommitWriter.readStagedEntries staged) s
      else ([], .error (.server .workspaceBehind)) := by
  have hget : (getBranch workspace branchName : Action Value Branch) s =
      ([], .ok ⟨branchName, commitId⟩) := by
    have hfound : (Program.read fun s : State Value =>
        .ok (s.repo.refs.branches.lookup branchName) : Action Value (Option String)) s =
          ([], .ok (some commitId)) := by
      rw [Program.read, hbranch]
    unfold getBranch
    rw [Program.bind_of_ok (congrArg Prod.snd hfound), hfound]
    rfl
  have hread : (readStaged : Action Value StagedDb) s = ([], .ok staged) := by
    rw [readStaged, Program.read]
    simp only [hstaged]
  have hconflicts : (Program.read fun s : State Value =>
      (listConflicts s.repo.db fuel workspace.commit (CommitWriter.readStagedEntries staged)
        ⟨branchName, commitId⟩).mapError .server : Action Value (List PathBuf)) s =
        ([], .ok conflicts) := by
    rw [Program.read, hlist]
    rfl
  unfold prepare
  rw [Program.bind_of_ok (congrArg Prod.snd hget), hget]
  simp only [after, List.foldl_nil, List.nil_append]
  rw [Program.bind_of_ok (congrArg Prod.snd hread), hread]
  simp only [after, List.foldl_nil, List.nil_append]
  rw [Program.bind_of_ok (congrArg Prod.snd hconflicts), hconflicts]
  simp only [after, List.foldl_nil, List.nil_append]
  by_cases hnone : conflicts = []
  · rw [if_neg (not_not.mpr hnone), if_pos hnone]
  · rw [if_pos hnone, if_neg hnone]
    rfl

/-- What the check for conflicts should come to. A commit that is not refused exports the data
frames of all that is staged, and goes on with them. -/
structure ConflictsExact (iter : List MerkleHash → List MerkleHash) (env : Env Value) (fuel : ℕ)
    (s : State Value) (staged : StagedDb) (w b : CommitTree s.repo.db) (name : Option String)
    (branchName : String) (conflicts : List PathBuf) : Prop where
  listed : listConflicts s.repo.db fuel w.commit (CommitWriter.readStagedEntries staged)
    ⟨branchName, b.commit.hash.display⟩ = .ok conflicts
  exact : ∀ p, p ∈ conflicts ↔
    p ∈ stagedFiles (CommitWriter.readStagedEntries staged) ∧ w.identityAt p ≠ b.identityAt p
  reported : ∀ m, mergeability iter s.repo fuel w.commit staged branchName = some (.ok m) →
    m.conflicts = conflicts.map PathBuf.display ∧ (m.isMergeable = true ↔ conflicts = [])
  refused : conflicts ≠ [] →
    WorkspaceCommit.commit env fuel ⟨w.commit, name⟩ branchName s =
      ([], .error (.server .workspaceBehind))
  accepted : conflicts = [] →
    WorkspaceCommit.commit env fuel ⟨w.commit, name⟩ branchName s =
      (do
        let dirEntries ← exportTabularDataFrames env (CommitWriter.readStagedEntries staged)
        let commit ← commitDirEntries env dirEntries branchName
        publish ⟨w.commit, name⟩ branchName commit : Action Value CommitNode) s

/-- The conflicts are exact when each staged file is there on both sides or on neither, and its
hashes tell the sides apart. -/
theorem conflictsExact_iff (iter : List MerkleHash → List MerkleHash) (env : Env Value) (fuel : ℕ)
    (s : State Value) (staged : StagedDb) (w b : CommitTree s.repo.db) (name : Option String)
    (branchName : String) (hw : UniquePaths [] w.tree) (hb : UniquePaths [] b.tree)
    (hstaged : s.staged = .db staged)
    (hbranch : s.repo.refs.branches.lookup branchName = some b.commit.hash.display)
    (hfw : w.tree.size ≤ fuel) (hfb : b.tree.size ≤ fuel) :
    (∃ conflicts, ConflictsExact iter env fuel s staged w b name branchName conflicts) ↔
      ∀ p ∈ stagedFiles (CommitWriter.readStagedEntries staged), Comparable w b p := by
  rcases mem_conflicts_iff hw hb (CommitWriter.readStagedEntries staged) branchName hfw hfb with
    ⟨conflicts, hlist, hmem⟩
  constructor
  · rintro ⟨listed, h⟩ p hp
    obtain rfl := Except.ok.inj (hlist.symm.trans h.listed)
    apply comparable_of_hashesDiffer_iff
    have hexact := (hmem p).symm.trans (h.exact p)
    rwa [and_iff_right hp, and_iff_right hp] at hexact
  · intro hall
    have hprepare := @prepare_eq _ env s fuel ⟨w.commit, name⟩ staged branchName _ conflicts
      hstaged hbranch hlist
    refine ⟨conflicts, hlist, fun p => ?_, fun m => mergeability_ok hbranch hlist, fun hne => ?_,
      fun hnone => ?_⟩
    · rw [hmem]
      exact and_congr_right fun hp => hashesDiffer_iff_of_comparable (hall p hp)
    · rw [if_neg hne] at hprepare
      unfold WorkspaceCommit.commit
      rw [Program.bind_of_error (congrArg Prod.snd hprepare), hprepare]
    · rw [if_pos hnone] at hprepare
      exact Program.bind_congr hprepare

namespace ConflictsExample

open Oxen.Example

def workspaceRoot : List MerkleTreeNode :=
  [dir [] 0x10 [file "a" [1] 1]]

/-- The branch has changed `a` and added `b`. -/
def branchRoot : List MerkleTreeNode :=
  [dir [] 0x20 [file "a" [2] 2, file "b" [3] 3]]

def nodes : NodeStore :=
  .ofTrees [.mk (.commit { hash := 0x1 }) workspaceRoot,
    .mk (.commit { hash := 0x2, parentIds := [0x1] }) branchRoot]

def atWorkspace : CommitTree nodes where
  commit := { hash := 0x1 }
  children := workspaceRoot
  stored := by decide
  shape := by decide

def atBranch : CommitTree nodes where
  commit := { hash := 0x2, parentIds := [0x1] }
  children := branchRoot
  stored := by decide
  shape := by decide

def env : Env Unit where
  toLocalRepository := repo
  numVNodes n := (n + 99) / 100
  numVNodes_zero := rfl
  numVNodes_pos n hn := by omega
  uuid _ _ := [7]
  timestamp := 5000000000
  copyTo _ _ := .ok []
  dataType _ _ := .text
  metadataHash _ _ _ := .ok 0
  mtime := (5, 0)

/-- One file is staged. -/
def stagedOf (name : String) : StagedDb :=
  AList.insert [name] ⟨.added, .file (fileNode name [9] 9)⟩ ∅

def stateOf (name : String) : State Unit where
  repo := { db := nodes, refs := { branches := AList.insert "main" "2" ∅ } }
  staged := .db (stagedOf name)
  tables := ∅
  working := ∅
  versions := ∅
  config := some "1"

theorem comparable_a : Comparable atWorkspace atBranch ["a"] := by
  refine ⟨by decide, fun e e' he he' => ?_⟩
  obtain rfl := Option.some.inj (he.symm.trans
    (show atWorkspace.entryMap.lookup ["a"] = some (.file (fileNode "a" [1] 1)) by decide))
  obtain rfl := Option.some.inj (he'.symm.trans
    (show atBranch.entryMap.lookup ["a"] = some (.file (fileNode "a" [2] 2)) by decide))
  exact Iff.rfl

end ConflictsExample

open ConflictsExample in
/-- A file that was changed on the branch is in conflict. -/
theorem conflictsExact_modified :
    ∃ conflicts, ConflictsExact id env 10 (stateOf "a") (stagedOf "a") atWorkspace atBranch none
      "main" conflicts := by
  apply (conflictsExact_iff id env 10 (stateOf "a") (stagedOf "a") atWorkspace atBranch none "main"
    (by decide) (by decide) rfl (by decide) (by decide)
    (by decide)).mpr
  intro p hp
  obtain rfl : p = ["a"] := by
    rw [show stagedFiles (CommitWriter.readStagedEntries (stagedOf "a")) = [["a"]] by
      decide] at hp
    exact List.mem_singleton.mp hp
  exact comparable_a

open ConflictsExample in
/-- A file that was added on the branch is overwritten by the workspace. -/
theorem not_conflictsExact :
    ¬ ∃ conflicts, ConflictsExact id env 10 (stateOf "b") (stagedOf "b") atWorkspace atBranch none
      "main" conflicts := by
  rintro ⟨conflicts, h⟩
  have hlisted : listConflicts nodes 10 atWorkspace.commit
      (CommitWriter.readStagedEntries (stagedOf "b")) ⟨"main", "2"⟩ = .ok [] := by
    decide
  have hdisplay : atBranch.commit.hash.display = "2" := by decide
  have hempty := h.listed
  rw [hdisplay] at hempty
  obtain rfl := Except.ok.inj (hempty.symm.trans hlisted)
  have hmissed := (h.exact ["b"]).mpr (by decide)
  cases hmissed

end Workspaces

end Oxen
