import Oxen.Verification.Checkout.Addressed
import Oxen.Verification.Checkout.Reached

/-! Runs of edits, restores and branch checkouts in a remote-mode repository. The version
store stays content-addressed as long as no step stores a file that HEAD does not have. -/

namespace Oxen.RemoteMode

open EStateM MerkleTreeNode

/-- A commit whose tree is stored and whose root directory is indexed. -/
structure StoredCommit (env : Env) extends CommitTree env.db where
  size_le : toCommitTree.tree.size ≤ env.fuel
  indexed : ∀ root ∈ children, (env.dirHashes commit.hash).lookup [] = some root.hash

variable {env : Env}

theorem StoredCommit.readRootDir (t : StoredCommit env) :
    ∃ root, t.children = [root] ∧ t.rootHashes = root.containerHashes ∧
      ([], root) ∈ t.tree.subtrees [] ∧
      RemoteMode.readRootDir env t.id =
        .ok { tree := root, uniqueHashes := root.containerHashes } := by
  rcases t.exists_root with ⟨d, vnodes, hroot, hname⟩
  have hmem : MerkleTreeNode.mk (.directory d) vnodes ∈ t.children := by simp [hroot]
  have hstored := t.stored_tree.child _ hmem
  rcases (stored_container rfl _).mp hstored with ⟨⟨record, hr, hn, -⟩, -⟩
  have hsize : (MerkleTreeNode.mk (.directory d) vnodes).size ≤ env.fuel := by
    have hle := t.size_le
    rw [CommitTree.tree, size_mk, hroot] at hle
    simp only [List.map_cons, List.map_nil, List.sum_cons, List.sum_nil] at hle
    omega
  have hload := loadChildren_of_stored hstored rfl [] [] hsize
  refine ⟨_, hroot, by simp [CommitTree.rootHashes, hroot], ?_, ?_⟩
  · exact child_mem_subtrees (self_mem_subtrees [] t.tree) hmem
  · have hindex := t.indexed _ hmem
    have hown : EMerkleTreeNode.ownPath [] (.directory d) = [] := by
      simp [EMerkleTreeNode.ownPath, hname]
    have hrecord : env.db d.hash = some record := hr
    rw [node_mk, hown] at hload
    rw [RemoteMode.readRootDir, CommitTree.id, hindex, hash_mk]
    simp only [EMerkleTreeNode.hash, hrecord, hn, loadChildren, hload]
    simp [loaded, hstored.prune_nil]

/-! ## One checkout -/

/-- The store is content-addressed, and a file that was not on disk before has content
with the hash recorded for a file of the commit at its path. -/
structure Restored (repo : LocalRepository) (files : List (PathBuf × FileNode))
    (state state' : RepoState) : Prop where
  addressed : ContentAddressed repo state'.versions
  disk : ∀ path content mtime, state'.disk.lookup path = some (.file content mtime) →
    state.disk.lookup path = some (.file content mtime) ∨
      ∃ f, (path, f) ∈ files ∧ repo.xxh3 content = f.hash

section

variable {repo : LocalRepository} {files : List (PathBuf × FileNode)} {state : RepoState}

theorem Restored.refl (ha : ContentAddressed repo state.versions) :
    Restored repo files state state where
  addressed := ha
  disk _ _ _ h := .inl h

theorem restored_of_writesVersions {toRestore : List FileToRestore} {state' : RepoState}
    (ha : ContentAddressed repo state.versions) (h : WritesVersions toRestore state state')
    (hfiles : ∀ r ∈ toRestore, (r.path, r.fileNode) ∈ files) :
    Restored repo files state state' where
  addressed := by
    rw [h.versions]
    exact ha
  disk path content mtime hl := by
    rcases h.disk path content mtime hl with hl | ⟨r, hr, rfl, hv⟩
    · exact .inl hl
    · exact .inr ⟨r.fileNode, hfiles r hr, ha _ _ hv⟩

/-- Restoring follows steps that only take entries away. -/
theorem restored_bind {action : RepoM Unit} {next : Unit → RepoM Unit}
    (h : Shrinking repo action state)
    (hnext : ∀ state', ContentAddressed repo state'.versions → Shrinks state state' →
      Restored repo files state' (after (next ()) state')) :
    Restored repo files state (after (action >>= next) state) := by
  have hback : ∀ {path content mtime}, (after action state).disk.lookup path =
      some (.file content mtime) → state.disk.lookup path = some (.file content mtime) := by
    intro path content mtime hl
    rcases h.2.disk path with hp | hp
    · rwa [← hp]
    · rw [hp] at hl
      cases hl
  rcases after_bind_cases action next state with ⟨a, -, hafter⟩ | ⟨-, hafter⟩
  · rw [hafter]
    have hrest := hnext _ h.1 h.2
    refine ⟨hrest.addressed, fun path content mtime hl => ?_⟩
    rcases hrest.disk path content mtime hl with hl | hf
    · exact .inl (hback hl)
    · exact .inr hf
  · rw [hafter]
    exact ⟨h.1, fun path content mtime hl => .inl (hback hl)⟩

end

/-- No file outside of the directories that both commits share would be stored with
content other than the recorded one. -/
def LeavesSafely (repo : LocalRepository) (state : RepoState) (s t : StoredCommit env) : Prop :=
  ∀ x ∈ (s.tree.prune t.rootHashes).files [], Unspoiled repo state x.1 x.2

section

variable {state : RepoState} (source : Option (StoredCommit env)) (t : StoredCommit env)
  (ha : ContentAddressed env.repo state.versions)
  (hu : ∀ s, source = some s → LeavesSafely env.repo state s t)

include hu in
/-- The nodes of HEAD that a checkout compares the working tree with are its files
outside of the shared directories. -/
theorem unspoiled_of_partialNodes (path : PathBuf) (node : PartialNode)
    (h : (KeyedMap.insertAll ∅ (((source.map fun s => s.tree.loaded t.rootHashes []).map
      (·.partialNodes)).getD [])).lookup path = some node) :
    ∃ f : FileNode, node = f.toPartialNode ∧ Unspoiled env.repo state path f := by
  cases source with
  | none =>
      have hmem : (path, node) ∈ ([] : List (PathBuf × PartialNode)) := by
        simpa using KeyedMap.mem_of_lookup_insertAll h
      cases hmem
  | some s =>
      have hmem : (path, node) ∈ (s.tree.loaded t.rootHashes []).partialNodes := by
        simpa using KeyedMap.mem_of_lookup_insertAll h
      rcases List.mem_map.mp hmem with ⟨⟨p, f⟩, hf, heq⟩
      obtain ⟨rfl, rfl⟩ := Prod.mk.inj heq
      exact ⟨f, rfl, hu s rfl _ hf⟩

include ha hu in
/-- A checkout that leaves HEAD safely keeps the store content-addressed and restores
committed content only. -/
theorem restored_checkoutSubtrees :
    Restored env.repo (t.tree.files []) state
      (after (checkoutSubtrees env t.id (source.map (·.id))) state) := by
  rcases t.readRootDir with ⟨root, -, hhashes, hroot, hread⟩
  have hfrom : (source.map (·.id)).bind
      (rootWithChildrenAndPartialNodes env.db root.containerHashes env.fuel) =
        source.map fun s => s.tree.loaded t.rootHashes [] := by
    rw [← hhashes]
    cases source with
    | none => rfl
    | some s => exact s.load_partialNodes _ s.size_le
  rw [checkoutSubtrees]
  simp only [hread, hfrom]
  split
  · exact .refl ha
  rw [after_get_bind]
  split
  · exact .refl ha
  · rename_i results hw
    have hfiles : ∀ r ∈ results.filesToRestore, (r.path, r.fileNode) ∈ t.tree.files [] := by
      intro r hr
      rcases (mem_filesToRestore_iff hw).mp hr with ⟨path, cs, hv, hp, -⟩
      have hmem := (reaches_iff_from.mp (TargetVisits.reaches hv)).mem_subtrees hroot
      exact mem_files_iff.mpr ⟨path, cs, hmem, hp⟩
    have hrestore : ∀ state', ContentAddressed env.repo state'.versions →
        Restored env.repo (t.tree.files []) state'
          (after (if env.repo.isRemoteMode = true then
            restorePresentFiles env.repo results.filesToRestore
            else restoreFiles env.repo results.filesToRestore) state') := by
      intro state' ha'
      split
      · exact restored_of_writesVersions ha' (writesVersions_restorePresentFiles _) hfiles
      · exact restored_of_writesVersions ha' (writesVersions_restoreFiles _) hfiles
    have hstorable := storable_of_walkTargetTree (unspoiled_of_partialNodes source t hu) hw
    split
    · exact .refl ha
    · apply restored_bind (shrinking_applyDirReplacements ha hstorable)
      intro state' ha' hs
      cases source with
      | none => exact hrestore state' ha'
      | some s =>
          apply restored_bind _ fun state'' ha'' _ => hrestore state'' ha''
          exact shrinking_cleanupRemovedFiles ha' s.toCommitTree
            (fun x hx => (hu s rfl x hx).mono hs) _ _ _

end

theorem StoredCommit.tree_eq {s t : StoredCommit env} (h : s.commit = t.commit) :
    s.tree = t.tree :=
  s.stored_tree.eq_of_hash t.stored_tree rfl rfl (congrArg CommitNode.hash h)

/-- Nothing lies outside of the shared directories when both commits are one. -/
theorem leavesSafely_of_commit_eq {repo : LocalRepository} {state : RepoState}
    {s t : StoredCommit env} (h : s.commit = t.commit) : LeavesSafely repo state s t := by
  have htree := StoredCommit.tree_eq h
  rcases t.readRootDir with ⟨root, hroot, hhashes, -, -⟩
  rcases t.exists_root with ⟨d, vnodes, hd, -⟩
  have hmem : d.hash ∈ t.rootHashes := by
    simp [CommitTree.rootHashes, hd, containerHashes_mk (n := .directory d) rfl,
      EMerkleTreeNode.hash]
  have hprune : MerkleTreeNode.prune t.rootHashes (.mk (.directory d) vnodes) =
      .mk (.directory d) [] := by
    rw [prune_mk, if_neg fun hn => hn.2 hmem]
  intro x hx
  exfalso
  rw [htree, CommitTree.tree, hd, prune_mk] at hx
  split at hx
  · rw [List.map_cons, List.map_nil, hprune, files_mk rfl, List.flatMap_singleton, files_mk rfl] at hx
    cases hx
  · rw [files_mk rfl] at hx
    cases hx

/-! ## Refs -/

/-- The branch names the commit. -/
def BranchAt (env : Env) (refs : Refs) (name : String) (commit : CommitNode) : Prop :=
  ∃ commitId, refs.branches.lookup name = some commitId ∧
    Commits.getById env.db commitId = some commit

/-- The commits of HEAD and of all branches are stored. -/
structure AllStored (env : Env) (refs : Refs) : Prop where
  head : ∀ commit, headCommitMaybe env refs = some commit →
    ∃ s : StoredCommit env, s.commit = commit
  branch : ∀ name commit, BranchAt env refs name commit → ∃ s : StoredCommit env, s.commit = commit

theorem BranchAt.unique {refs : Refs} {name : String} {c d : CommitNode}
    (hc : BranchAt env refs name c) (hd : BranchAt env refs name d) : c = d := by
  rcases hc with ⟨id, hl, hg⟩
  rcases hd with ⟨id', hl', hg'⟩
  obtain rfl := Option.some.inj (hl.symm.trans hl')
  exact Option.some.inj (hg.symm.trans hg')

theorem StoredCommit.getById (s : StoredCommit env) :
    Commits.getById env.db s.commit.hash.display = some s.commit := by
  rcases (stored_container rfl _).mp s.stored_tree with ⟨⟨record, hr, hn, -⟩, -⟩
  have hrecord : env.db s.commit.hash = some record := hr
  rw [Commits.getById, MerkleHash.parse_display, Option.bind_some, Commits.getByHash, hrecord]
  rcases record with ⟨node, parentId, children⟩
  obtain rfl : node = .commit s.commit := hn
  rfl

theorem headCommitMaybe_of_headCommit {refs : Refs} {commit : CommitNode}
    (h : Commits.headCommit env.db refs = .ok commit) : headCommitMaybe env refs = some commit := by
  rw [Commits.headCommit] at h
  rw [headCommitMaybe]
  cases hid : refs.headCommitId env.db with
  | none =>
      rw [hid] at h
      cases h
  | some commitId =>
      simp only [hid] at h
      cases hp : MerkleHash.parse commitId with
      | none =>
          rw [hp] at h
          cases h
      | some hash =>
          simp only [hp] at h
          cases hg : Commits.getByHash env.db hash with
          | none =>
              rw [hg] at h
              cases h
          | some found =>
              simp only [hg] at h
              obtain rfl := Except.ok.inj h
              rw [Option.bind_some, Commits.getById, hp, Option.bind_some, hg]

/-- Setting HEAD to a branch makes its commit the head commit. -/
theorem headCommitMaybe_of_branchAt {refs : Refs} {name : String} {commit : CommitNode}
    (h : BranchAt env refs name commit) :
    headCommitMaybe env { refs with headFile := some name } = some commit := by
  rcases h with ⟨commitId, hl, hg⟩
  rw [headCommitMaybe, Refs.headCommitId]
  simp only [Option.bind_some, hl, hg]

theorem AllStored.setHead {refs : Refs} (h : AllStored env refs) {name : String}
    {commit : CommitNode} (hb : BranchAt env refs name commit) :
    AllStored env { refs with headFile := some name } where
  head found hfound := by
    obtain rfl := Option.some.inj ((headCommitMaybe_of_branchAt hb).symm.trans hfound)
    exact h.branch name commit hb
  branch other found hfound := h.branch other found hfound

section CreateBranch

variable {refs : Refs} {s : StoredCommit env} (hs : headCommitMaybe env refs = some s.commit)
  (name : String)

/-- The refs after a branch is created at the commit. -/
def withBranch (refs : Refs) (name : String) (commit : CommitNode) : Refs :=
  { refs with branches := refs.branches.insert name commit.hash.display }

theorem branchAt_withBranch : BranchAt env (withBranch refs name s.commit) name s.commit :=
  ⟨_, AList.lookup_insert _, s.getById⟩

include hs in
/-- A new branch at the head commit leaves HEAD where it is. -/
theorem headCommitMaybe_withBranch :
    headCommitMaybe env (withBranch refs name s.commit) = some s.commit := by
  cases hf : refs.headFile with
  | none =>
      rw [headCommitMaybe, Refs.headCommitId, hf] at hs
      cases hs
  | some ref =>
      by_cases hr : ref = name
      · subst hr
        have hhead := headCommitMaybe_of_branchAt (@branchAt_withBranch env refs s ref)
        rw [← hhead]
        simp only [withBranch, hf]
      · rw [← hs]
        simp only [headCommitMaybe, Refs.headCommitId, withBranch, hf, Option.bind_some,
          AList.lookup_insert_ne hr]

include hs in
theorem AllStored.withBranch (h : AllStored env refs) :
    AllStored env (RemoteMode.withBranch refs name s.commit) where
  head commit hc := by
    rw [headCommitMaybe_withBranch hs] at hc
    exact ⟨s, Option.some.inj hc⟩
  branch other commit hb := by
    by_cases ho : other = name
    · subst ho
      exact ⟨s, (branchAt_withBranch other).unique hb⟩
    · rcases hb with ⟨commitId, hl, hg⟩
      rw [RemoteMode.withBranch, AList.lookup_insert_ne ho] at hl
      exact h.branch other commit ⟨commitId, hl, hg⟩

end CreateBranch

/-! ## Steps -/

/-- What has to hold of the files of HEAD before a step. A new branch may be checked
out when every file of HEAD that is on disk and not stored yet has the recorded
content, and a branch may be checked out when HEAD is left safely. -/
def Op.Meets (env : Env) (clone : Clone) : Op → Prop
  | .edit _ => True
  | .restore _ => True
  | .createCheckout _ _ _ =>
      ∀ s : StoredCommit env, headCommitMaybe env clone.refs = some s.commit →
        ∀ x ∈ s.tree.files [], Storable env.repo clone.toRepoState x.2.hash x.1
  | .checkout name =>
      ∀ s t : StoredCommit env, headCommitMaybe env clone.refs = some s.commit →
        BranchAt env clone.refs name t.commit → LeavesSafely env.repo clone.toRepoState s t

/-- A hash map is read in any order. -/
def Op.Valid (env : Env) (clone : Clone) : Op → Prop
  | .createCheckout nodes _ _ => nodes.Perm (KeyedMap.toList (headNodes env clone.refs))
  | _ => True

theorem after_onFiles (action : RepoM Unit) (clone : Clone) :
    after (onFiles action) clone =
      { clone with toRepoState := after action clone.toRepoState } := by
  rw [onFiles, after_get_bind]
  cases hr : action.run clone.toRepoState with
  | ok a files => rw [after_of_ok hr]; rfl
  | error e files => rw [after_of_error hr]; rfl

section Checkout

variable {clone : Clone} (hstored : AllStored env clone.refs)
  (ha : ContentAddressed env.repo clone.versions) {name : String}

include hstored ha in
/-- A checkout of a branch that leaves HEAD safely keeps the store content-addressed
and restores files of the branch's commit with their content. -/
theorem checkout_spec (hmeets : Op.Meets env clone (.checkout name)) :
    AllStored env (after (checkout env name) clone).refs ∧
      ContentAddressed env.repo (after (checkout env name) clone).versions ∧
      ∀ t : StoredCommit env, BranchAt env clone.refs name t.commit →
        Restored env.repo (t.tree.files []) clone.toRepoState
          (after (checkout env name) clone).toRepoState := by
  have hsame : AllStored env clone.refs ∧ ContentAddressed env.repo clone.versions ∧
      ∀ t : StoredCommit env, BranchAt env clone.refs name t.commit →
        Restored env.repo (t.tree.files []) clone.toRepoState clone.toRepoState :=
    ⟨hstored, ha, fun _ _ => .refl ha⟩
  rw [checkout, after_get_bind]
  split
  · rw [after_throw]
    exact hsame
  · rename_i commitId hl
    split
    · rw [after_pure]
      exact hsame
    · split
      · rw [after_throw]
        exact hsame
      · rename_i commit hg
        have hb : BranchAt env clone.refs name commit := ⟨commitId, hl, hg⟩
        rcases hstored.branch name commit hb with ⟨t, rfl⟩
        have hsource : ∃ source : Option (StoredCommit env),
            (headCommitMaybe env clone.refs).map (·.hash) = source.map (·.id) ∧
              ∀ s, source = some s → headCommitMaybe env clone.refs = some s.commit := by
          cases hh : headCommitMaybe env clone.refs with
          | none => exact ⟨none, rfl, fun s hs => by cases hs⟩
          | some c =>
              rcases hstored.head c hh with ⟨s, rfl⟩
              exact ⟨some s, rfl, fun _ hs => by rw [Option.some.inj hs]⟩
        rcases hsource with ⟨source, hmap, hhead⟩
        have hrestored := restored_checkoutSubtrees source t ha
          fun s hs => hmeets s t (hhead s hs) hb
        rw [hmap]
        have hall : ∀ t' : StoredCommit env, BranchAt env clone.refs name t'.commit →
            Restored env.repo (t'.tree.files []) clone.toRepoState
              (after (checkoutSubtrees env t.id (source.map (·.id))) clone.toRepoState) := by
          intro t' hb'
          rw [StoredCommit.tree_eq (hb'.unique hb)]
          exact hrestored
        rcases after_bind_cases (onFiles (checkoutSubtrees env t.id (source.map (·.id))))
            (fun _ => modify fun clone =>
              { clone with refs := { clone.refs with headFile := some name } }) clone with
          ⟨a, -, hafter⟩ | ⟨-, hafter⟩
        · rw [show t.commit.hash = t.id from rfl, hafter, after_onFiles]
          exact ⟨hstored.setHead hb, hrestored.addressed, hall⟩
        · rw [show t.commit.hash = t.id from rfl, hafter, after_onFiles]
          exact ⟨hstored, hrestored.addressed, hall⟩

end Checkout

section CreateCheckout

variable {clone : Clone} {head : CommitNode}
  (hhead : Commits.headCommit env.db clone.refs = .ok head)

include hhead in
/-- A branch is created at HEAD, or nothing happens. -/
theorem createCheckoutBranch_cases (remote : Except OxenError Unit) (name : String) :
    (∃ e, (createCheckoutBranch env remote name).run clone = .error e clone) ∨
      after (createCheckoutBranch env remote name) clone =
        { clone with refs := withBranch clone.refs name head } := by
  by_cases hinvalid : Branches.isInvalidBranchName name = true
  · left
    exact ⟨_, by simp only [createCheckoutBranch, EStateM.run_bind, EStateM.run_get, hhead,
      hinvalid, if_true]; rfl⟩
  · by_cases hmem : name ∈ clone.refs.branches
    · left
      exact ⟨_, by simp only [createCheckoutBranch, EStateM.run_bind, EStateM.run_get, hhead,
        hinvalid, hmem, if_true]; rfl⟩
    · right
      simp only [createCheckoutBranch, after_get_bind, hhead, hinvalid, hmem, if_false]
      cases remote <;> rfl

include hhead in
theorem storable_of_headNodes {s : StoredCommit env} (hs : s.commit = head)
    (hmeets : ∀ x ∈ s.tree.files [], Storable env.repo clone.toRepoState x.2.hash x.1)
    {nodes : List (PathBuf × PartialNode)}
    (hperm : nodes.Perm (KeyedMap.toList (headNodes env clone.refs))) :
    ∀ node ∈ nodes, Storable env.repo clone.toRepoState node.2.hash node.1 := by
  subst hs
  rintro ⟨path, node⟩ hnode
  have hlookup := KeyedMap.mem_toList.mp (hperm.mem_iff.mp hnode)
  have hload : rootWithChildrenAndPartialNodes env.db [] env.fuel s.commit.hash =
      some (s.tree.loaded [] []) :=
    s.load_partialNodes [] s.size_le
  simp only [headNodes, headCommitMaybe_of_headCommit hhead, Option.bind_some, hload,
    Option.elim_some] at hlookup
  have hmem : (path, node) ∈ (s.tree.loaded [] []).partialNodes := by
    simpa using KeyedMap.mem_of_lookup_insertAll hlookup
  rcases List.mem_map.mp hmem with ⟨⟨p, f⟩, hf, heq⟩
  obtain ⟨rfl, rfl⟩ := Prod.mk.inj heq
  rw [s.stored_tree.prune_nil] at hf
  exact hmeets _ hf

end CreateCheckout

/-- What every step keeps. -/
structure Sound (env : Env) (clone : Clone) : Prop where
  addressed : ContentAddressed env.repo clone.versions
  stored : AllStored env clone.refs

/-- A branch that was just created at HEAD shares everything with it. -/
theorem sound_checkout_new {clone : Clone} (h : Sound env clone) {s : StoredCommit env}
    (hhead : Commits.headCommit env.db clone.refs = .ok s.commit)
    (remote : Except OxenError Unit) (name : String) :
    Sound env (after (createCheckoutBranch env remote name >>= fun _ => checkout env name) clone) := by
  have hcommit := headCommitMaybe_of_headCommit hhead
  have hnew : Sound env { clone with refs := withBranch clone.refs name s.commit } :=
    ⟨h.addressed, h.stored.withBranch hcommit name⟩
  have hcreate := createCheckoutBranch_cases hhead remote name
  rcases after_bind_cases (createCheckoutBranch env remote name) (fun _ => checkout env name) clone
    with ⟨a, hok, hafter⟩ | ⟨-, hafter⟩
  · rw [hafter]
    rcases hcreate with ⟨e, herror⟩ | heq
    · rw [herror] at hok
      cases hok
    · rw [heq]
      have hsafe : Op.Meets env { clone with refs := withBranch clone.refs name s.commit }
          (.checkout name) := by
        intro s' t hs' ht
        have hs := (headCommitMaybe_withBranch hcommit name).symm.trans hs'
        have ht' := (branchAt_withBranch name).unique ht
        exact leavesSafely_of_commit_eq ((Option.some.inj hs).symm.trans ht')
      have hspec := checkout_spec hnew.stored hnew.addressed hsafe
      exact ⟨hspec.2.1, hspec.1⟩
  · rw [hafter]
    rcases hcreate with ⟨e, herror⟩ | heq
    · rw [after_of_error herror]
      exact h
    · rw [heq]
      exact hnew

theorem sound_createCheckout {clone : Clone} (h : Sound env clone)
    {nodes : List (PathBuf × PartialNode)} (remote : Except OxenError Unit) (name : String)
    (hvalid : Op.Valid env clone (.createCheckout nodes remote name))
    (hmeets : Op.Meets env clone (.createCheckout nodes remote name)) :
    Sound env (after (createCheckout env nodes remote name) clone) := by
  rw [createCheckout, after_get_bind]
  cases hhead : Commits.headCommit env.db clone.refs with
  | error e => exact h
  | ok head =>
      have hcommit := headCommitMaybe_of_headCommit hhead
      rcases h.stored.head head hcommit with ⟨s, rfl⟩
      have hstore := shrinking_storeWorkingFiles h.addressed
        (storable_of_headNodes hhead rfl (hmeets s hcommit) hvalid)
      have hfiles := after_onFiles (storeWorkingFiles nodes) clone
      have hmiddle : Sound env (after (onFiles (storeWorkingFiles nodes)) clone) := by
        rw [hfiles]
        exact ⟨hstore.1, h.stored⟩
      dsimp only
      split
      · exact h
      rcases after_bind_cases (onFiles (storeWorkingFiles nodes))
          (fun _ => createCheckoutBranch env remote name >>= fun _ => checkout env name) clone with
        ⟨a, -, hafter⟩ | ⟨-, hafter⟩
      · refine (congrArg (Sound env) hafter).mpr ?_
        apply sound_checkout_new (s := s) hmiddle
        rw [hfiles]
        exact hhead
      · exact (congrArg (Sound env) hafter).mpr hmiddle

/-- Every step may be taken from a working tree that has all files of HEAD as recorded. -/
theorem meets_of_intact {clone : Clone} {head : StoredCommit env}
    (hhead : headCommitMaybe env clone.refs = some head.commit)
    (h : ∀ x ∈ head.tree.files [], ∃ content ∈ clone.disk.content x.1,
      env.repo.xxh3 content = x.2.hash) (op : Op) : op.Meets env clone := by
  have htree : ∀ s : StoredCommit env, headCommitMaybe env clone.refs = some s.commit →
      s.tree = head.tree :=
    fun s hs => StoredCommit.tree_eq (Option.some.inj (hs.symm.trans hhead))
  cases op with
  | edit disk => trivial
  | restore downloads => trivial
  | createCheckout nodes remote name =>
      intro s hs x hx _ _
      rw [htree s hs] at hx
      exact h x hx
  | checkout name =>
      intro s t hs _ x hx _ _
      have hx' := s.mem_files_of_open hx
      rw [htree s hs] at hx'
      exact h x hx'

/-! ## Runs -/

section Restore

variable {repo : LocalRepository}

theorem versions_after_changeDisk (change : WorkingTree → Except OxenError WorkingTree)
    (state : RepoState) : (after (changeDisk change) state).versions = state.versions := by
  cases hc : change state.disk with
  | error e =>
      have hrun : (changeDisk change).run state = .error e state := by simp [changeDisk, hc]
      rw [after_of_error hrun]
  | ok disk => rw [after_of_ok (changeDisk_run_ok hc)]

theorem keeps_changeDisk (change : WorkingTree → Except OxenError WorkingTree) :
    Keeps (fun state => ContentAddressed repo state.versions) (changeDisk change) := by
  intro state ha
  rw [versions_after_changeDisk]
  exact ha

theorem WorkingTree.lookup_of_writeFile {disk disk' : WorkingTree} {path : PathBuf}
    {content : Content} {mtime : FileTime} (h : disk.writeFile path content mtime = .ok disk') :
    disk'.lookup path = some (.file content mtime) := by
  unfold WorkingTree.writeFile at h
  split at h
  · obtain rfl := Except.ok.inj h
    rw [WorkingTree.lookup_put, if_pos rfl]
  · cases h

/-- A download is stored under the hash of the bytes it left on disk. -/
theorem keeps_restoreDownload (download : Download) :
    Keeps (fun state => ContentAddressed repo state.versions) (restoreDownload repo download) := by
  refine .bind (keeps_changeDisk _) fun _ state ha => ?_
  rcases after_bind_cases
      (changeDisk (·.writeFile download.path download.bytes download.mtime))
      (fun _ => if !download.inDir then
        storeVersionFromPath (repo.xxh3 download.bytes) download.path else pure ()) state with
    ⟨a, hrun, hafter⟩ | ⟨-, hafter⟩
  · refine (congrArg (fun state' : RepoState => ContentAddressed repo state'.versions) hafter).mpr ?_
    have ha' := @keeps_changeDisk repo
      (·.writeFile download.path download.bytes download.mtime) state ha
    have hl := WorkingTree.lookup_of_writeFile (changeDisk_run_eq_ok hrun).1
    split
    · refine (shrinking_storeVersionFromPath ha' fun _ _ => ?_).1
      exact ⟨download.bytes, WorkingTree.content_eq_some_iff.mpr ⟨_, hl⟩, rfl⟩
    · exact ha'
  · refine (congrArg (fun state' : RepoState => ContentAddressed repo state'.versions) hafter).mpr ?_
    exact keeps_changeDisk _ state ha

theorem keeps_restoreDownloads (downloads : List Download) :
    Keeps (fun state => ContentAddressed repo state.versions) (restoreDownloads repo downloads) := by
  induction downloads with
  | nil => exact .pure _
  | cons download rest ih => exact .bind (keeps_restoreDownload download) fun _ => ih

end Restore

/-- Something happens to the clone. -/
def Step (env : Env) (op : Op) (clone clone' : Clone) : Prop :=
  op.Valid env clone ∧ clone' = after (op.perform env) clone

/-- A step at which the files of HEAD are as it needs them. -/
def SafeStep (env : Env) (op : Op) (clone clone' : Clone) : Prop :=
  Step env op clone clone' ∧ op.Meets env clone

theorem Sound.step {clone clone' : Clone} {op : Op} (hstep : SafeStep env op clone clone')
    (h : Sound env clone) : Sound env clone' := by
  rcases hstep with ⟨⟨hvalid, rfl⟩, hmeets⟩
  cases op with
  | edit disk => exact ⟨h.addressed, h.stored⟩
  | restore downloads =>
      rw [Op.perform, after_onFiles]
      exact ⟨keeps_restoreDownloads downloads _ h.addressed, h.stored⟩
  | createCheckout nodes remote name => exact sound_createCheckout h remote name hvalid hmeets
  | checkout name =>
      have hspec := checkout_spec h.stored h.addressed hmeets
      exact ⟨hspec.2.1, hspec.1⟩

/-- In every state of every run each stored version has content that hashes to its name. -/
def StaysAddressed (env : Env) (clone : Clone) : Prop :=
  ∀ ops clone', Runs.Run (Step env) ops clone clone' → ContentAddressed env.repo clone'.versions

/-- Checking out a branch restores files of its commit with their content. -/
def RestoresCommitted (env : Env) (clone : Clone) : Prop :=
  ∀ name (t : StoredCommit env), BranchAt env clone.refs name t.commit →
    Op.Meets env clone (.checkout name) →
      Restored env.repo (t.tree.files []) clone.toRepoState
        (after (checkout env name) clone).toRepoState

/-- Along a run of safe steps the version store stays content-addressed, and checkouts
restore committed content. -/
theorem contentAddressed_of_run {clone clone' : Clone} {ops : List Op}
    (hstored : AllStored env clone.refs) (ha : ContentAddressed env.repo clone.versions)
    (hrun : Runs.Run (SafeStep env) ops clone clone') :
    ContentAddressed env.repo clone'.versions ∧ RestoresCommitted env clone' := by
  have hsound : Sound env clone' :=
    hrun.keeps (fun _ _ _ hstep h => Sound.step hstep h) ⟨ha, hstored⟩
  refine ⟨hsound.addressed, fun name t hb hmeets => ?_⟩
  exact (checkout_spec hsound.stored hsound.addressed hmeets).2.2 t hb

namespace Example

open Oxen.Example CleanExample

/-- A clone of the two commits. -/
def remoteEnv : Env where
  repo := { Oxen.Example.repo with isRemoteMode := true }
  db := nodes
  dirHashes commitId :=
    KeyedMap.insertAll ∅ [([], if commitId = fileCommit.id then 0xa0 else 0xb0)]
  fuel := 10

def fileHead : StoredCommit remoteEnv where
  toCommitTree := fileCommit
  size_le := by decide
  indexed := by decide

def dirHead : StoredCommit remoteEnv where
  toCommitTree := dirCommit
  size_le := by decide
  indexed := by decide

/-- HEAD is on `main`, and nothing is stored yet. -/
def clone : Clone where
  disk := fileDisk
  versions := fun _ => none
  refs :=
    { headFile := some "main"
      branches := KeyedMap.insertAll ∅
        [("main", fileCommit.id.display), ("dirs", dirCommit.id.display)] }

theorem clone_head : headCommitMaybe remoteEnv clone.refs = some fileHead.commit := by decide

theorem clone_stored : AllStored remoteEnv clone.refs where
  head commit h := ⟨fileHead, Option.some.inj (clone_head.symm.trans h)⟩
  branch name commit hb := by
    rcases hb with ⟨commitId, hl, hg⟩
    have hmem : (name, commitId) ∈
        [("main", fileCommit.id.display), ("dirs", dirCommit.id.display)] := by
      simpa using KeyedMap.mem_of_lookup_insertAll hl
    simp only [List.mem_cons, Prod.mk.injEq, List.not_mem_nil, or_false] at hmem
    rcases hmem with ⟨-, rfl⟩ | ⟨-, rfl⟩
    · exact ⟨fileHead, Option.some.inj (fileHead.getById.symm.trans hg)⟩
    · exact ⟨dirHead, Option.some.inj (dirHead.getById.symm.trans hg)⟩

def files : List (PathBuf × PartialNode) :=
  KeyedMap.toList (headNodes remoteEnv clone.refs)

/-- A new branch is checked out. -/
def newBranch : Op := .createCheckout files (.ok ()) "new"

/-- The file `a` is edited. -/
def editedDisk : WorkingTree :=
  fileDisk.put ["a"] (.file [9] 5) (by decide)

end Example

/-- A new branch is made at the committed files, and then the branch `dirs` is checked out. -/
theorem contentAddressed_of_run_newBranch :
    ContentAddressed Example.remoteEnv.repo
        (after (checkout Example.remoteEnv "dirs")
          (after (Example.newBranch.perform Example.remoteEnv) Example.clone)).versions ∧
      RestoresCommitted Example.remoteEnv (after (checkout Example.remoteEnv "dirs")
        (after (Example.newBranch.perform Example.remoteEnv) Example.clone)) := by
  have hfirst : SafeStep Example.remoteEnv Example.newBranch Example.clone
      (after (Example.newBranch.perform Example.remoteEnv) Example.clone) :=
    ⟨⟨.refl _, rfl⟩, meets_of_intact Example.clone_head (by decide) _⟩
  have hsecond : SafeStep Example.remoteEnv (.checkout "dirs")
      (after (Example.newBranch.perform Example.remoteEnv) Example.clone)
      (after (checkout Example.remoteEnv "dirs")
        (after (Example.newBranch.perform Example.remoteEnv) Example.clone)) :=
    ⟨⟨trivial, rfl⟩, @meets_of_intact Example.remoteEnv _ Example.fileHead (by decide)
      (by decide) _⟩
  exact contentAddressed_of_run Example.clone_stored (fun _ _ h => by cases h)
    (.cons hfirst (.cons hsecond (.nil _)))

/-- An edited file is stored under the hash of the committed one when a new branch is
checked out. -/
theorem not_staysAddressed :
    AllStored Example.remoteEnv Example.clone.refs ∧
      ContentAddressed Example.remoteEnv.repo Example.clone.versions ∧
      ¬ StaysAddressed Example.remoteEnv Example.clone := by
  refine ⟨Example.clone_stored, fun _ _ h => (by cases h), fun h => ?_⟩
  have haddressed := h [.edit Example.editedDisk, Example.newBranch] _
    (.cons ⟨trivial, rfl⟩ (.cons ⟨.refl _, rfl⟩ (.nil _)))
  have hstored : (after (Example.newBranch.perform Example.remoteEnv)
      (after ((Op.edit Example.editedDisk).perform Example.remoteEnv) Example.clone)).versions
        (Oxen.Example.fileNode "a" [1] 1).hash = some [9] := by decide
  have hhash := haddressed _ _ hstored
  revert hhash
  decide

end Oxen.RemoteMode
