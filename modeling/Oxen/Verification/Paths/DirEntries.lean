import Oxen.Model.DirEntries
import Oxen.Verification.Status.HeadTree

/-! What the walk of a listing collects, directory by directory. -/

namespace Oxen

namespace DirEntries

open MerkleTreeNode CommitMerkleTree Commits
open Status (Entry HeadTree)

/-! ## The order of the entries -/

section Order

variable (sortOpts : SortOpts)

instance : Std.TransCmp (compareField sortOpts) := by
  cases hby : sortOpts.sortBy with
  | name =>
      have h : compareField sortOpts = compareOn (·.filename) := by
        funext a b
        rw [compareField, hby]
        rfl
      rw [h]
      infer_instance
  | date =>
      have h : compareField sortOpts =
          compareOn fun e => e.latestCommit.map (·.timestamp) := by
        funext a b
        rw [compareField, hby]
        rfl
      rw [h]
      infer_instance

instance : Std.TransCmp (compareEntries sortOpts) := by
  have hdirs : Std.TransCmp fun a b : MetadataEntry => compare b.isDir a.isDir :=
    @Std.TransCmp.opposite _ (compareOn MetadataEntry.isDir) inferInstance
  cases hreverse : sortOpts.reverse with
  | false =>
      have h : compareEntries sortOpts =
          compareLex (fun a b => compare b.isDir a.isDir) (compareField sortOpts) := by
        funext a b
        rw [compareEntries, hreverse]
        rfl
      rw [h]
      infer_instance
  | true =>
      have h : compareEntries sortOpts = compareLex (fun a b => compare b.isDir a.isDir)
          fun a b => compareField sortOpts b a := by
        funext a b
        rw [compareEntries, hreverse, if_pos rfl, ← Std.OrientedCmp.eq_swap]
        rfl
      have hfield : Std.TransCmp fun a b => compareField sortOpts b a := Std.TransCmp.opposite
      rw [h]
      infer_instance

theorem pairwise_sortEntries (entries : List MetadataEntry) :
    (sortEntries sortOpts entries).Pairwise fun a b => (compareEntries sortOpts a b).isLE := by
  apply List.pairwise_mergeSort
  · intro a b c
    exact Std.TransCmp.isLE_trans
  · intro a b
    rw [@Std.OrientedCmp.eq_swap _ (compareEntries sortOpts) _ b a]
    cases compareEntries sortOpts a b with
    | lt => rfl
    | eq => rfl
    | gt => rfl

theorem perm_sortEntries (entries : List MetadataEntry) :
    (sortEntries sortOpts entries).Perm entries :=
  List.mergeSort_perm entries _

end Order

/-! ## Runs with a cache of commits -/

section Cache

variable {env : Env} {α β : Type}

/-- The cache has what the store has. -/
def CacheSound (env : Env) (cache : FoundCommits) : Prop :=
  ∀ id commit, cache.lookup id = some commit → getByHash env.db id = some commit

/-- From every sound cache the action returns a value with the property. -/
def Yields (env : Env) (action : ListM α) (P : α → Prop) : Prop :=
  ∀ cache, CacheSound env cache → ∃ a cache', action.run cache = .ok (a, cache') ∧
    CacheSound env cache' ∧ P a

theorem cacheSound_empty : CacheSound env ∅ := by
  intro id commit h
  cases h

theorem yields_pure {P : α → Prop} {a : α} (h : P a) : Yields env (pure a) P :=
  fun cache hcache => ⟨a, cache, rfl, hcache, h⟩

theorem Yields.bind {P : α → Prop} {Q : β → Prop} {action : ListM α} {next : α → ListM β}
    (h : Yields env action P) (hnext : ∀ a, P a → Yields env (next a) Q) :
    Yields env (action >>= next) Q := by
  intro cache hcache
  rcases h cache hcache with ⟨a, cache', hrun, hcache', ha⟩
  rcases hnext a ha cache' hcache' with ⟨b, cache'', hrun', hcache'', hb⟩
  refine ⟨b, cache'', ?_, hcache'', hb⟩
  rw [StateT.run_bind, hrun]
  exact hrun'

theorem yields_lift {result : Except ListError α} {a : α} (h : result = .ok a) :
    Yields env (liftM result) (· = a) := by
  intro cache hcache
  subst h
  exact ⟨a, cache, rfl, hcache, rfl⟩

theorem Yields.mono {P Q : α → Prop} {action : ListM α} (h : Yields env action P)
    (hle : ∀ a, P a → Q a) : Yields env action Q := by
  intro cache hcache
  rcases h cache hcache with ⟨a, cache', hrun, hcache', ha⟩
  exact ⟨a, cache', hrun, hcache', hle a ha⟩

theorem yields_findCommit {id : MerkleHash} {commit : CommitNode}
    (h : getByHash env.db id = some commit) : Yields env (findCommit env id) (· = commit) := by
  intro cache hcache
  cases hfound : cache.lookup id with
  | some found =>
      obtain rfl := Option.some.inj (h.symm.trans (hcache id found hfound))
      refine ⟨commit, cache, ?_, hcache, rfl⟩
      simp only [findCommit, StateT.run_bind, StateT.run_get, pure_bind, hfound]
      rfl
  | none =>
      refine ⟨commit, cache.insert id commit, ?_, ?_, rfl⟩
      · simp only [findCommit, StateT.run_bind, StateT.run_get, pure_bind, hfound, h]
        rfl
      · intro id' commit' hlookup
        rcases KeyedMap.lookup_insert_eq_some.mp hlookup with ⟨rfl, rfl⟩ | ⟨-, hlookup⟩
        · exact h
        · exact hcache id' commit' hlookup

end Cache

/-! ## Entries -/

section Entries

/-- The entry of a directory, without what is nested below it. -/
def dirEntry (dirNode : DirNode) (commit : CommitNode) (resource : ParsedResource) :
    MetadataEntry where
  filename := dirNode.name.display
  hash := dirNode.hash
  isDir := true
  latestCommit := some commit
  resource := some resource
  size := dirNode.numBytes
  dataType := .dir
  isQueryable := none
  children := none

/-- The entry of a file at the path of the resource. -/
def fileEntry (fileNode : FileNode) (commit : CommitNode) (indexed : Option Bool)
    (resource : ParsedResource) : MetadataEntry where
  filename := fileNode.name.display
  hash := fileNode.hash
  isDir := false
  latestCommit := some commit
  resource := some resource
  size := fileNode.numBytes
  dataType := fileNode.dataType
  isQueryable := indexed
  children := none

variable {env : Env} {commit : CommitNode} {resource : ParsedResource}

theorem yields_dirNodeToMetadataEntry {d : DirNode} (append : Bool)
    (h : getByHash env.db d.lastCommitId = some commit) :
    Yields env (dirNodeToMetadataEntry env d resource append)
      (· = dirEntry d commit (if append then resource.join d.name else resource)) := by
  refine (yields_findCommit h).bind fun found hfound => ?_
  subst hfound
  exact yields_pure rfl

/-- Lookups answer for every file that is no data frame, and for all if the workspaces can be
read. -/
theorem exists_isIndexed {f : FileNode} (h : f.dataType = .tabular → env.workspaces.isOk)
    (path : PathBuf) : ∃ indexed, isIndexed env f path = .ok indexed := by
  by_cases htabular : f.dataType = .tabular
  · have hok := h htabular
    cases hworkspaces : env.workspaces with
    | error e =>
        rw [hworkspaces] at hok
        cases hok
    | ok workspaces =>
        rw [isIndexed, if_pos htabular, isQueryableDataFrameIndexed, hworkspaces]
        exact ⟨_, rfl⟩
  · rw [isIndexed, if_neg htabular]
    exact ⟨none, rfl⟩

theorem workspaces_isOk_of_isIndexed {f : FileNode} {path : PathBuf} {indexed : Option Bool}
    (h : isIndexed env f path = .ok indexed) (htabular : f.dataType = .tabular) :
    env.workspaces.isOk := by
  rw [isIndexed, if_pos htabular, isQueryableDataFrameIndexed] at h
  cases hworkspaces : env.workspaces with
  | error e =>
      rw [hworkspaces] at h
      cases h
  | ok workspaces => rfl

theorem yields_fileNodeToMetadataEntry {f : FileNode} {indexed : Option Bool}
    (h : getByHash env.db f.lastCommitId = some commit)
    (hindexed : isIndexed env f
      (if f.name <:+ resource.path then resource else resource.join f.name).path = .ok indexed) :
    Yields env (fileNodeToMetadataEntry env f resource)
      (· = fileEntry f commit indexed
        (if f.name <:+ resource.path then resource else resource.join f.name)) := by
  refine (yields_findCommit h).bind fun found hfound => ?_
  subst hfound
  refine (yields_lift hindexed).bind fun found hfound => ?_
  subst hfound
  exact yields_pure rfl

end Entries

/-! ## The walk of one directory -/

section Walk

variable {env : Env} {childrenAt : PathBuf → ListM (Option (List MetadataEntry))}
  {search : PathBuf} {resource : ParsedResource}

theorem pDirEntries_of_forall {current : PathBuf} {cs : List MerkleTreeNode}
    (h : ∀ c ∈ cs, ∀ entries,
      pDirEntry env childrenAt search resource current entries c = pure entries)
    (entries : List MetadataEntry) :
    pDirEntries env childrenAt search resource current entries cs = pure entries := by
  induction cs generalizing entries with
  | nil => rw [pDirEntries]
  | cons c cs ih =>
      rw [pDirEntries, h c List.mem_cons_self, pure_bind]
      exact ih (fun c hc => h c (List.mem_cons_of_mem _ hc)) entries

/-- Below the directory that is listed nothing is added. -/
theorem pDirEntry_below {current : PathBuf} (h : search.length < current.length)
    (entries : List MetadataEntry) (t : MerkleTreeNode) :
    pDirEntry env childrenAt search resource current entries t = pure entries := by
  have hne : current ≠ search := by
    intro heq
    rw [heq] at h
    exact absurd h (lt_irrefl _)
  induction t generalizing current entries with
  | mk n cs ih =>
      cases n with
      | file f => rw [pDirEntry, if_neg hne]
      | directory d =>
          have hlt : search.length < (current ++ d.name).length := by
            rw [List.length_append]
            omega
          rw [pDirEntry, if_neg (fun hcurrent => hne hcurrent.1), pure_bind]
          refine pDirEntries_of_forall (fun c hc entries => ih c hc hlt entries ?_) entries
          intro heq
          rw [heq] at hlt
          exact absurd hlt (lt_irrefl _)
      | vnode v =>
          rw [pDirEntry]
          exact pDirEntries_of_forall (fun c hc entries => ih c hc h entries hne) entries
      | commit c => rw [pDirEntry]

theorem pDirEntries_append {current : PathBuf} (entries : List MetadataEntry)
    (as bs : List MerkleTreeNode) :
    pDirEntries env childrenAt search resource current entries (as ++ bs) =
      pDirEntries env childrenAt search resource current entries as >>= fun entries =>
        pDirEntries env childrenAt search resource current entries bs := by
  induction as generalizing entries with
  | nil => rw [List.nil_append, pDirEntries, pure_bind]
  | cons a as ih =>
      rw [List.cons_append, pDirEntries, pDirEntries, bind_assoc]
      exact bind_congr fun entries => ih entries

/-- Virtual nodes are walked through. -/
theorem pDirEntries_vnodes {current : PathBuf} {vnodes : List MerkleTreeNode}
    (h : ∀ v ∈ vnodes, ∃ w ds, v = mk (.vnode w) ds) (entries : List MetadataEntry) :
    pDirEntries env childrenAt search resource current entries vnodes =
      pDirEntries env childrenAt search resource current entries (vnodes.flatMap children) := by
  induction vnodes generalizing entries with
  | nil => rfl
  | cons v vnodes ih =>
      rcases h v List.mem_cons_self with ⟨w, ds, rfl⟩
      rw [List.flatMap_cons, pDirEntries_append, pDirEntries, pDirEntry]
      exact bind_congr fun entries => ih (fun v hv => h v (List.mem_cons_of_mem _ hv)) entries

/-- One entry is added for each child. -/
theorem yields_pDirEntries {P : MerkleTreeNode → MetadataEntry → Prop} {cs : List MerkleTreeNode}
    (h : ∀ c ∈ cs, ∀ entries,
      Yields env (pDirEntry env childrenAt search resource search entries c)
        fun out => ∃ e, out = entries ++ [e] ∧ P c e)
    (entries : List MetadataEntry) :
    Yields env (pDirEntries env childrenAt search resource search entries cs)
      fun out => ∃ es, out = entries ++ es ∧ List.Forall₂ P cs es := by
  induction cs generalizing entries with
  | nil =>
      rw [pDirEntries]
      exact yields_pure ⟨[], (List.append_nil entries).symm, .nil⟩
  | cons c cs ih =>
      rw [pDirEntries]
      refine (h c List.mem_cons_self entries).bind fun out hout => ?_
      rcases hout with ⟨e, rfl, he⟩
      refine (ih (fun c hc => h c (List.mem_cons_of_mem _ hc)) _).mono fun out hout => ?_
      rcases hout with ⟨es, rfl, hes⟩
      exact ⟨e :: es, by rw [List.append_assoc]; rfl, .cons he hes⟩

end Walk

/-! ## What the walk makes of a directory -/

section Made

variable (env : Env) (commit : CommitNode) (revision : PathBuf) (sortOpts : SortOpts)

def resourceAt (path : PathBuf) : ParsedResource where
  commit := some commit
  path := path
  version := revision
  resource := revision ++ path

@[simp] theorem path_resourceAt (path : PathBuf) :
    (resourceAt commit revision path).path = path := rfl

theorem resourceAt_join (path name : PathBuf) :
    (resourceAt commit revision path).join name = resourceAt commit revision (path ++ name) := by
  rw [ParsedResource.join, resourceAt, resourceAt, List.append_assoc]

/-- The entry that shows a node at a path. -/
inductive Shows (nested : PathBuf → Option (List MetadataEntry) → Prop) (path : PathBuf) :
    EMerkleTreeNode → MetadataEntry → Prop
  | file {f : FileNode} {latest : CommitNode} {indexed : Option Bool}
      (hcommit : getByHash env.db f.lastCommitId = some latest)
      (hindexed : isIndexed env f path = .ok indexed) :
      Shows nested path (.file f) (fileEntry f latest indexed (resourceAt commit revision path))
  | directory {d : DirNode} {latest : CommitNode} {children : Option (List MetadataEntry)}
      (hcommit : getByHash env.db d.lastCommitId = some latest)
      (hchildren : nested path children) :
      Shows nested path (.directory d)
        { dirEntry d latest (resourceAt commit revision path) with children := children }

/-- The path under which a child of the directory is listed. The name of a file is left out
where the path of the directory ends with it. -/
def listedPath (path : PathBuf) : EMerkleTreeNode → PathBuf
  | .file f => if f.name <:+ path then path else path ++ f.name
  | n => n.ownPath path

/-- The entry that the walk makes for a child of the directory at a path. -/
def Made (nested : PathBuf → Option (List MetadataEntry) → Prop) (path : PathBuf)
    (n : EMerkleTreeNode) (e : MetadataEntry) : Prop :=
  Shows env commit revision nested (listedPath path n) n e

/-- What the walk nests below the directory at a path. -/
def MadeBelow : ℕ → PathBuf → Option (List MetadataEntry) → Prop
  | 0, _, children => children = none
  | depth + 1, path, children =>
      ∃ hash es, (env.dirHashes commit.hash).lookup path = some hash ∧
        List.Forall₂ (Made env commit revision (MadeBelow depth) path) (listed env.db hash) es ∧
        children =
          if (sortEntries sortOpts es).isEmpty then none else some (sortEntries sortOpts es)

/-- The last commit of a node is in the store, and the workspaces can be read if the node is
looked up in them. -/
def IsListable : EMerkleTreeNode → Prop
  | .file f => (getByHash env.db f.lastCommitId).isSome ∧
      (f.dataType = .tabular → env.workspaces.isOk)
  | .directory d => (getByHash env.db d.lastCommitId).isSome
  | _ => False

/-- All entries that are at most so many levels below a path can be listed. -/
def EntriesListable (levels : ℕ) (path : PathBuf) : Prop :=
  ∀ rest n, rest ≠ [] → rest.length ≤ levels →
    Entry env.toEnv (env.dirHashes commit.hash) (path ++ rest) n → IsListable env n

variable {env commit revision sortOpts} {path : PathBuf}

/-- A directory of the index is loaded with the entries that it lists. -/
theorem exists_dir (head : HeadTree env.toEnv (env.dirHashes commit.hash)) (hfuel : 2 ≤ env.fuel)
    {hash : MerkleHash} (h : (env.dirHashes commit.hash).lookup path = some hash) :
    ∃ dirNode vnodes, getDirWithChildren env commit path = some (mk (.directory dirNode) vnodes) ∧
      (∀ v ∈ vnodes, ∃ w ds, v = mk (.vnode w) ds) ∧
      (vnodes.flatMap children).map node = listed env.db hash ∧
      ∀ c ∈ vnodes.flatMap children, c.isEntry = true := by
  have hlists := Status.lists_of_good head.good h
  rcases head.good path hash h with ⟨d, vnodes, rfl, -, hheld, hplaced⟩
  rcases Nat.exists_eq_add_of_le' hfuel with ⟨fuel, hfuelEq⟩
  rcases @readDepth_one env.db d vnodes fuel hheld fun v hv => hplaced.eq_vnode hv with
    ⟨old, loaded, hread, hvnodes, hlisted⟩
  refine ⟨old, loaded, ?_, hvnodes, hlisted, fun c hc => hlists.isEntry c ?_⟩
  · rw [getDirWithChildren, h, Option.bind_some, hfuelEq, hread]
  · rw [← hlisted]
    exact List.mem_map_of_mem hc

variable {childrenAt : PathBuf → ListM (Option (List MetadataEntry))}
  {nested : PathBuf → Option (List MetadataEntry) → Prop}

theorem yields_child {c : MerkleTreeNode} (hentry : c.isEntry = true)
    (hcommit : IsListable env c.node)
    (hnested : ∀ d, c.node = .directory d →
      Yields env (childrenAt (path ++ d.name)) (nested (path ++ d.name)))
    (entries : List MetadataEntry) :
    Yields env (pDirEntry env childrenAt path (resourceAt commit revision path) path entries c)
      fun out => ∃ e, out = entries ++ [e] ∧
        Made env commit revision nested path c.node e := by
  obtain ⟨n, cs⟩ := c
  cases n with
  | file f =>
      rcases Option.isSome_iff_exists.mp hcommit.1 with ⟨latest, hlatest⟩
      rcases exists_isIndexed hcommit.2 (listedPath path (.file f)) with ⟨indexed, hindexed⟩
      have hresource : (if f.name <:+ (resourceAt commit revision path).path then
            resourceAt commit revision path
          else (resourceAt commit revision path).join f.name) =
          resourceAt commit revision (if f.name <:+ path then path else path ++ f.name) := by
        rw [resourceAt_join, path_resourceAt]
        split
        · rfl
        · rfl
      rw [pDirEntry, if_pos rfl]
      refine (@yields_fileNodeToMetadataEntry env latest (resourceAt commit revision path) f indexed
        hlatest ?_).bind fun e he => ?_
      · rw [hresource]
        exact hindexed
      · subst he
        rw [hresource]
        exact yields_pure ⟨_, rfl, Shows.file hlatest hindexed⟩
  | directory d =>
      rcases Option.isSome_iff_exists.mp hcommit with ⟨latest, hlatest⟩
      have hlength : d.name.length = 1 := of_decide_eq_true hentry
      have hname : d.name ≠ [] := by
        intro hnil
        rw [hnil] at hlength
        cases hlength
      have hbelow : path.length < (path ++ d.name).length := by
        rw [List.length_append]
        omega
      rw [pDirEntry, if_pos ⟨rfl, hname⟩]
      refine (yields_dirNodeToMetadataEntry true hlatest).bind fun e he => ?_
      subst he
      refine (hnested d rfl).bind fun found hfound => ?_
      rw [pure_bind]
      beta_reduce
      rw [if_pos rfl, resourceAt_join,
        pDirEntries_of_forall fun c _ entries => pDirEntry_below hbelow entries c]
      exact yields_pure ⟨_, rfl, Shows.directory hlatest hfound⟩
  | vnode v => cases hentry
  | commit c => cases hentry

theorem yields_walk {hash : MerkleHash} (h : (env.dirHashes commit.hash).lookup path = some hash)
    {vnodes : List MerkleTreeNode} (hvnodes : ∀ v ∈ vnodes, ∃ w ds, v = mk (.vnode w) ds)
    (hlisted : (vnodes.flatMap children).map node = listed env.db hash)
    (hentry : ∀ c ∈ vnodes.flatMap children, c.isEntry = true) {levels : ℕ}
    (hstored : EntriesListable env commit (levels + 1) path)
    (hnested : ∀ name d, Entry env.toEnv (env.dirHashes commit.hash) (path ++ [name])
      (.directory d) → Yields env (childrenAt (path ++ [name])) (nested (path ++ [name]))) :
    Yields env (pDirEntries env childrenAt path (resourceAt commit revision path) path [] vnodes)
      (List.Forall₂ (Made env commit revision nested path) (listed env.db hash)) := by
  have hof : ∀ c ∈ vnodes.flatMap children, ∃ name, c.node.ownPath [] = [name] ∧
      Entry env.toEnv (env.dirHashes commit.hash) (path ++ [name]) c.node := by
    intro c hc
    rcases Status.exists_name_of_isEntry (hentry c hc) with ⟨name, hname⟩
    refine ⟨name, hname, (Status.entry_concat_iff h).mpr ⟨?_, hname⟩⟩
    rw [← hlisted]
    exact List.mem_map_of_mem hc
  have hchild : ∀ c ∈ vnodes.flatMap children, ∀ entries,
      Yields env (pDirEntry env childrenAt path (resourceAt commit revision path) path entries c)
        fun out => ∃ e, out = entries ++ [e] ∧
          Made env commit revision nested path c.node e := by
    intro c hc entries
    rcases hof c hc with ⟨name, hname, hin⟩
    refine yields_child (hentry c hc) ?_ (fun d hd => ?_) entries
    · exact hstored [name] c.node (List.cons_ne_nil _ _) (Nat.succ_le_succ (Nat.zero_le _)) hin
    · rw [hd] at hname hin
      have hdname : d.name = [name] := hname
      rw [hdname]
      exact hnested name d hin
  rw [pDirEntries_vnodes hvnodes]
  refine (yields_pDirEntries hchild []).mono fun out hout => ?_
  rcases hout with ⟨es, rfl, hes⟩
  rw [← hlisted, List.forall₂_map_left_iff]
  exact hes

theorem EntriesListable.below {levels : ℕ} {name : String}
    (h : EntriesListable env commit (levels + 1) path) :
    EntriesListable env commit levels (path ++ [name]) := by
  intro rest n hne hlength hentry
  rw [List.append_assoc, List.singleton_append] at hentry
  exact h (name :: rest) n (List.cons_ne_nil _ _) (Nat.succ_le_succ hlength) hentry

/-- What is nested below a directory of the index. -/
theorem yields_childrenToDepth (head : HeadTree env.toEnv (env.dirHashes commit.hash))
    (hfuel : 2 ≤ env.fuel) {depth : ℕ} {resource : ParsedResource}
    (hcommit : resource.commit = some commit) (hversion : resource.version = revision)
    (h : path ∈ env.dirHashes commit.hash) (hstored : EntriesListable env commit depth path) :
    Yields env (childrenToDepth env sortOpts depth resource path)
      (MadeBelow env commit revision sortOpts depth path) := by
  induction depth generalizing path resource with
  | zero => exact yields_pure rfl
  | succ depth ih =>
      rcases Option.isSome_iff_exists.mp (AList.lookup_isSome.mpr h) with ⟨hash, hlookup⟩
      rcases exists_dir head hfuel hlookup with
        ⟨dirNode, vnodes, hdir, hvnodes, hlisted, hentry⟩
      have hnested : ∀ name d,
          Entry env.toEnv (env.dirHashes commit.hash) (path ++ [name]) (.directory d) →
          Yields env (childrenToDepth env sortOpts depth (resourceAt commit revision path)
            (path ++ [name])) (MadeBelow env commit revision sortOpts depth (path ++ [name])) := by
        intro name d hd
        have hmem := (head.mem_iff (path ++ [name]) hd.ne_nil).mpr ⟨d, hd⟩
        exact ih rfl rfl hmem hstored.below
      rw [childrenToDepth, hcommit]
      simp only [hdir, hversion]
      refine (yields_walk hlookup hvnodes hlisted hentry hstored hnested).bind fun es hes => ?_
      exact yields_pure ⟨hash, es, hlookup, hes, rfl⟩

end Made

end DirEntries

end Oxen
