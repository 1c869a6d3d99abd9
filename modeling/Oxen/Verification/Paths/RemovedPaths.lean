import Oxen.Lib.Discovery
import Oxen.Verification.Paths.GlobSearch
import Oxen.Verification.Staging.Remove

/-! The paths that are missing in a directory, and what the search reports of them. -/

namespace Oxen

namespace GlobSearch

open MerkleTreeNode CommitMerkleTree Remove Status RelativePath Discovery

variable {env : Env} {dirHashes : DirHashes} {disk : WorkingTree} {path parent d e f p : PathBuf}
  {pattern : List String} {n : EMerkleTreeNode} {name : String}

/-! ## Patterns for children -/

/-- A component of a path stands for a name when it is read as a pattern. -/
def Stands (env : Env) (dir name : String) : Prop :=
  if isGlobPath dir then env.globMatch dir name = true else dir = name

instance (dir name : String) : Decidable (Stands env dir name) :=
  inferInstanceAs (Decidable (if isGlobPath dir then env.globMatch dir name = true else dir = name))

/-- A path that is read as a pattern matches a path. -/
abbrev Matches (env : Env) : PathBuf → PathBuf → Prop :=
  List.Forall₂ (Stands env)

theorem globPathOf_eq (path : PathBuf) : globPathOf env path = some (path ++ ["*"]) := by
  rw [globPathOf, show path.map Component.normal = names path from rfl, pathRelativeToDir_below,
    Option.map_some, names, List.map_map]
  simp [Function.comp_def, Component.text]

theorem treeMatch_children_iff (hstar : ∀ name, env.globMatch "*" name = true) :
    TreeMatch env (e ++ ["*"]) path ↔ ∃ f name, path = f ++ [name] ∧ Matches env e f := by
  induction e generalizing path with
  | nil =>
      rw [List.nil_append]
      constructor
      · intro h
        cases h with
        | last => exact ⟨[], _, rfl, .nil⟩
        | wildcard _ _ hrest => exact absurd rfl hrest.ne_nil.1
        | literal _ hrest => exact absurd rfl hrest.ne_nil.1
      · rintro ⟨f, name, rfl, hf⟩
        cases hf
        exact .last (hstar name)
  | cons dir e ih =>
      rw [List.cons_append]
      constructor
      · intro h
        have hne : e ++ ["*"] ≠ [] := List.concat_ne_nil "*" e
        generalize e ++ ["*"] = children at h ih hne
        cases h with
        | last => exact absurd rfl hne
        | wildcard hglob hname hrest =>
            rcases ih.mp hrest with ⟨f, name, rfl, hf⟩
            exact ⟨_ :: f, name, rfl, .cons (by rwa [Stands, if_pos hglob]) hf⟩
        | literal hglob hrest =>
            rcases ih.mp hrest with ⟨f, name, rfl, hf⟩
            exact ⟨dir :: f, name, rfl, .cons (by rw [Stands, hglob]; rfl) hf⟩
      · rintro ⟨f, name, rfl, hf⟩
        cases hf with
        | @cons _ x _ f hx hf =>
            have hrest := ih.mpr ⟨f, name, rfl, hf⟩
            cases hglob : isGlobPath dir with
            | true =>
                rw [Stands, if_pos hglob] at hx
                exact .wildcard hglob hx hrest
            | false =>
                rw [Stands, hglob] at hx
                obtain rfl : dir = x := hx
                exact .literal hglob hrest

/-- Names without wildcards stand only for themselves. -/
theorem matches_iff_eq (h : ∀ dir ∈ e, isGlobPath dir = false) : Matches env e f ↔ e = f := by
  rw [← List.forall₂_eq_eq_eq]
  have hstands : ∀ dir ∈ e, ∀ name, Stands env dir name ↔ dir = name := by
    intro dir hdir name
    rw [Stands, h dir hdir]
    rfl
  clear h
  induction e generalizing f with
  | nil => simp
  | cons dir e ih =>
      cases f with
      | nil => simp
      | cons name f =>
          rw [Matches, List.forall₂_cons, List.forall₂_cons, hstands dir List.mem_cons_self]
          exact and_congr_right fun _ => ih fun x hx => hstands x (List.mem_cons_of_mem dir hx)

/-! ## What one directory finds -/

variable (env dirHashes) in
/-- The search in a directory finds what lies directly in one that its path matches. -/
def SearchFinds (e p : PathBuf) : Prop :=
  ∃ f name n, p = f ++ [name] ∧ Matches env e f ∧ Entry env.toEnv dirHashes p n

/-- What the search in one directory adds to the paths. -/
def collect (env : Env) (dirPath : PathBuf) (removedPaths : List PathBuf) :
    ExceptT Remove.Error Option (List PathBuf) := do
  let globPath ← (globPathOf env dirPath : Option PathBuf)
  ExceptT.mk (some (searchMerkleTree env removedPaths globPath))

/-- The recursion goes on into directories that it newly finds. -/
theorem rCollectRemovedPaths_eq (fuel : ℕ) (removedPaths : List PathBuf)
    (hdir : disk.isDir path = true) :
    rCollectRemovedPaths env disk fuel path removedPaths =
      discover (ExceptT.mk none) (collect env) disk.isDir env.hashOrder fuel path
        removedPaths := by
  induction fuel generalizing path removedPaths with
  | zero => rfl
  | succ fuel ih =>
      rw [rCollectRemovedPaths, if_pos hdir, discover, collect, bind_assoc]
      refine bind_congr fun globPath => ?_
      dsimp only
      refine bind_congr fun found => ?_
      have hstep : (fun (acc : List PathBuf) y =>
          if disk.isDir y then rCollectRemovedPaths env disk fuel y acc else pure acc) =
          fun acc y => if disk.isDir y then discover (ExceptT.mk none) (collect env) disk.isDir
            env.hashOrder fuel y acc else pure acc := by
        funext acc y
        by_cases hy : disk.isDir y = true
        · rw [if_pos hy, if_pos hy, ih acc hy]
        · rw [if_neg hy, if_neg hy]
      rw [hstep]
      refine congrArg (fun new => List.foldlM _ found (env.hashOrder new)) ?_
      exact List.filter_congr fun x _ => decide_eq_decide.mpr Iff.rfl

section Search

variable {headCommit : Option CommitNode}
  (hcommit : Commits.headCommitMaybe env.db env.refs = .ok headCommit)
  (head : HeadTree env.toEnv (headDirHashes env.toEnv headCommit)) (hfuel : 2 ≤ env.fuel)
  (horder : ∀ l, (env.hashOrder l).Perm l)

include hcommit head hfuel horder

/-- The search adds the entries of the head that the pattern matches. -/
theorem searchMerkleTree_spec (hpattern : pattern ≠ []) (paths : List PathBuf) :
    ∃ paths', searchMerkleTree env paths pattern = .ok paths' ∧
      ∀ p, p ∈ paths' ↔ p ∈ paths ∨
        ∃ n, TreeMatch env pattern p ∧
          Entry env.toEnv (headDirHashes env.toEnv headCommit) p n := by
  cases headCommit with
  | none =>
      refine ⟨paths, by rw [searchMerkleTree, hcommit], fun p => (or_iff_left ?_).symm⟩
      rintro ⟨n, -, hn⟩
      rcases hn.listed with ⟨hash, hlookup, -⟩
      cases hlookup
  | some commit =>
      rcases rSearchMerkleTree_spec head hfuel horder hpattern paths [] with
        ⟨paths', hpaths, hmem⟩
      refine ⟨paths', ?_, fun p => ?_⟩
      · rw [searchMerkleTree, hcommit]
        exact congrArg (Except.mapError Remove.Error.oxen) hpaths
      · rw [hmem]
        simp only [List.nil_append, exists_and_left, exists_eq_left']

variable (hstar : ∀ name, env.globMatch "*" name = true)

include hstar

theorem collect_spec (dirPath : PathBuf) (removedPaths : List PathBuf) :
    ∃ found, collect env dirPath removedPaths = pure found ∧ ∀ p, p ∈ found ↔
      p ∈ removedPaths ∨ SearchFinds env (headDirHashes env.toEnv headCommit) dirPath p := by
  rcases searchMerkleTree_spec hcommit head hfuel horder (List.concat_ne_nil "*" dirPath)
    removedPaths with ⟨found, hfound, hmem⟩
  refine ⟨found, ?_, fun p => ?_⟩
  · rw [collect, globPathOf_eq]
    exact congrArg (fun r => ExceptT.mk (some r)) hfound
  · rw [hmem, SearchFinds]
    refine or_congr_right ⟨?_, ?_⟩
    · rintro ⟨n, hmatch, hentry⟩
      rcases (treeMatch_children_iff hstar).mp hmatch with ⟨f, name, rfl, hf⟩
      exact ⟨f, name, n, rfl, hf, hentry⟩
    · rintro ⟨f, name, n, rfl, hf, hentry⟩
      exact ⟨n, (treeMatch_children_iff hstar).mpr ⟨f, name, rfl, hf⟩, hentry⟩

/-! ## The whole search -/

/-- The paths that the head's tree has entries for. -/
def allPaths (db : NodeStore) (dirHashes : DirHashes) : List PathBuf :=
  dirHashes.keys.flatMap fun path =>
    ((dirHashes.lookup path).elim [] (listed db)).map fun n => path ++ n.ownPath []

omit hcommit head hfuel horder hstar in
theorem mem_allPaths (h : Entry env.toEnv dirHashes p n) : p ∈ allPaths env.db dirHashes := by
  rcases h.listed with ⟨hash, hlookup, hn⟩
  refine List.mem_flatMap.mpr ⟨p.dropLast, AList.mem_keys.mp h.dropLast_mem, ?_⟩
  rw [hlookup]
  refine List.mem_map.mpr ⟨n, hn, ?_⟩
  rw [h.name, CommitWriter.dropLast_append_leafName]

/-- What is missing from a set of paths. -/
theorem collectRemovedPaths_spec (hdir : disk.isDir d = true) {fuel : ℕ}
    (henough : unseen (allPaths env.db (headDirHashes env.toEnv headCommit)) [] < fuel) :
    ∃ removed, collectRemovedPaths env disk fuel d = pure removed ∧ ∀ p, p ∈ removed ↔
      Finds (SearchFinds env (headDirHashes env.toEnv headCommit)) disk.isDir d p ∧
        disk.lookup p = none := by
  have huniv : ∀ e p, SearchFinds env (headDirHashes env.toEnv headCommit) e p →
      p ∈ allPaths env.db (headDirHashes env.toEnv headCommit) := by
    rintro e p ⟨f, name, n, -, -, hentry⟩
    exact mem_allPaths hentry
  have hcollect := @collect_spec env headCommit hcommit head hfuel horder hstar
  rcases @mem_discover_iff _ _ _ _ _ _ disk.isDir (ExceptT.mk none) _ _ d _ fuel horder huniv
    hcollect henough with ⟨result, hresult, hmem⟩
  refine ⟨result.filter fun path => !disk.pathExists path, ?_, fun p => ?_⟩
  · rw [collectRemovedPaths, rCollectRemovedPaths_eq fuel [] hdir, hresult, pure_bind]
  · rw [List.mem_filter, hmem]
    simp [WorkingTree.pathExists]

end Search

/-! ## What is to be found -/

variable (env dirHashes disk) in
/-- A path below the directory that is in the head and missing on disk, in a directory that
exists on disk. -/
structure MissingBelow (d p : PathBuf) : Prop where
  below : d <+: p
  ne : d ≠ p
  entry : ∃ n, Entry env.toEnv dirHashes p n
  missing : disk.lookup p = none
  parent : disk.isDir p.dropLast = true

variable (env dirHashes disk) in
/-- With enough fuel the search ends, with the removed paths of the directory. -/
def FindsRemoved (d : PathBuf) : Prop :=
  ∃ bound, ∀ fuel, bound ≤ fuel → ∃ removed, collectRemovedPaths env disk fuel d = pure removed ∧
    ∀ p, p ∈ removed ↔ MissingBelow env dirHashes disk d p

variable (env dirHashes disk) in
/-- The directories on disk that the search comes to, each found by the pattern of one before. -/
abbrev Searched (d e : PathBuf) : Prop :=
  Enters (SearchFinds env dirHashes) disk.isDir d e

variable (env dirHashes disk) in
/-- The directories of the head with something missing that lie at or below `d` on disk are those
that the path of a searched directory matches when it is read as a pattern. -/
def PatternsSuffice (d : PathBuf) : Prop :=
  ∀ f name n, Entry env.toEnv dirHashes (f ++ [name]) n → disk.lookup (f ++ [name]) = none →
    (d <+: f ∧ disk.isDir f = true ↔
      ∃ e, Searched env dirHashes disk d e ∧ Matches env e f)

theorem missingBelow_concat_iff : MissingBelow env dirHashes disk d (f ++ [name]) ↔
    (d <+: f ∧ disk.isDir f = true) ∧ (∃ n, Entry env.toEnv dirHashes (f ++ [name]) n) ∧
      disk.lookup (f ++ [name]) = none := by
  constructor
  · intro h
    have hparent := h.parent
    rw [List.dropLast_concat] at hparent
    exact ⟨⟨(List.prefix_concat_iff.mp h.below).resolve_left h.ne, hparent⟩, h.entry, h.missing⟩
  · rintro ⟨⟨hbelow, hdir⟩, hentry, hmissing⟩
    refine ⟨hbelow.trans (List.prefix_append _ _), ?_, hentry, hmissing, ?_⟩
    · rintro rfl
      have := hbelow.length_le
      simp at this
    · rwa [List.dropLast_concat]

theorem finds_concat_iff (hentry : Entry env.toEnv dirHashes (f ++ [name]) n) :
    Finds (SearchFinds env dirHashes) disk.isDir d (f ++ [name]) ↔
      ∃ e, Searched env dirHashes disk d e ∧ Matches env e f := by
  constructor
  · rintro ⟨e, he, f', name', n', heq, hmatch, -⟩
    obtain ⟨rfl, -⟩ := List.append_inj' heq rfl
    exact ⟨e, he, hmatch⟩
  · rintro ⟨e, he, hmatch⟩
    exact ⟨e, he, f, name, n, rfl, hmatch, hentry⟩

/-- Both speak of missing entries in the same directories. -/
theorem patternsSuffice_iff : PatternsSuffice env dirHashes disk d ↔ ∀ p,
    (Finds (SearchFinds env dirHashes) disk.isDir d p ∧ disk.lookup p = none ↔
      MissingBelow env dirHashes disk d p) := by
  constructor
  · intro h p
    rcases List.eq_nil_or_concat p with rfl | ⟨f, name, rfl⟩
    · refine iff_of_false (fun hp => ?_) (fun hp => ?_)
      · rw [disk.lookup_nil] at hp
        cases hp.2
      · have hmissing := hp.missing
        rw [disk.lookup_nil] at hmissing
        cases hmissing
    · rw [List.concat_eq_append, missingBelow_concat_iff]
      constructor
      · rintro ⟨hfinds, hmissing⟩
        rcases hfinds with ⟨e, he, f', name', n, heq, hmatch, hentry⟩
        obtain ⟨rfl, -⟩ := List.append_inj' heq rfl
        exact ⟨(h f name n hentry hmissing).mpr ⟨e, he, hmatch⟩, ⟨n, hentry⟩, hmissing⟩
      · rintro ⟨hbelow, ⟨n, hentry⟩, hmissing⟩
        exact ⟨(finds_concat_iff hentry).mpr ((h f name n hentry hmissing).mp hbelow), hmissing⟩
  · intro h f name n hentry hmissing
    have hp := h (f ++ [name])
    rw [finds_concat_iff hentry, missingBelow_concat_iff] at hp
    exact ⟨fun hbelow => (hp.mpr ⟨hbelow, ⟨n, hentry⟩, hmissing⟩).1,
      fun hfinds => (hp.mp ⟨hfinds, hmissing⟩).1⟩

/-- Where no directory at or below `d` has wildcards in its path nothing else is matched. -/
theorem patternsSuffice_of_plain (head : HeadTree env.toEnv dirHashes)
    (hdir : disk.isDir d = true)
    (hplain : ∀ e, d <+: e → disk.isDir e = true → ∀ name ∈ e, isGlobPath name = false) :
    PatternsSuffice env dirHashes disk d := by
  have hsearched : ∀ e, Searched env dirHashes disk d e → d <+: e ∧ disk.isDir e = true := by
    intro e he
    induction he with
    | refl => exact ⟨List.prefix_rfl, hdir⟩
    | @tail a b _ hab ih =>
        rcases hab with ⟨⟨f, name, n, rfl, hmatch, -⟩, hb⟩
        obtain rfl := (matches_iff_eq (hplain a ih.1 ih.2)).mp hmatch
        exact ⟨ih.1.trans (List.prefix_append _ _), hb⟩
  intro f name n hentry hmissing
  constructor
  · rintro ⟨⟨rest, rfl⟩, hf⟩
    have hself : ∀ e, d <+: e → disk.isDir e = true → Matches env e e := fun e hbelow he =>
      (matches_iff_eq (hplain e hbelow he)).mpr rfl
    refine ⟨d ++ rest, ?_, hself _ (List.prefix_append _ _) hf⟩
    clear hmissing
    induction rest using List.reverseRecOn generalizing name n with
    | nil =>
        rw [List.append_nil]
        exact .refl
    | append_singleton rest x ih =>
        rw [← List.append_assoc] at hentry hf ⊢
        have hparent : disk.isDir (d ++ rest) = true := by
          refine decide_eq_true (@WorkingTree.isDir_parent disk _ x ?_)
          rw [of_decide_eq_true hf]
          exact Option.some_ne_none _
        rcases (hentry.of_isPrefix head (List.prefix_append _ _) (by simp)).1 with ⟨m, hm⟩
        exact (ih x m hm hparent).tail
          ⟨⟨_, x, m, rfl, hself _ (List.prefix_append _ _) hparent, hm⟩, hf⟩
  · rintro ⟨e, he, hmatch⟩
    have hbelow := hsearched e he
    obtain rfl := (matches_iff_eq (hplain e hbelow.1 hbelow.2)).mp hmatch
    exact hbelow

namespace MissingExample

/-- HEAD has the files `a` and `d/x`, and names without wildcards match themselves. -/
def committed : Env :=
  { NestedExample.committed with
    path := [.rootDir, .normal "repo"]
    toLowercase := String.toLower
    globMatch pattern name := pattern = "*" || pattern = name
    glob _ := .ok []
    hashOrder := id }

/-- The directory `d` is on fileGone without its file, and `a` is missing too. -/
def fileGone : WorkingTree :=
  RemoveExample.noFiles.put ["d"] .dir (by decide)

theorem isDir_iff_mem {path : PathBuf} : fileGone.isDir path = true ↔ path = [] ∨ path = ["d"] := by
  constructor
  · intro h
    by_cases hne : path = []
    · exact .inl hne
    · rw [WorkingTree.isDir, WorkingTree.lookup_of_ne_nil _ hne] at h
      rcases KeyedMap.lookup_insert_eq_some.mp (of_decide_eq_true h) with ⟨hpath, -⟩ | ⟨-, hnone⟩
      · exact .inr hpath
      · cases hnone
  · rintro (rfl | rfl) <;> decide

end MissingExample

namespace BracketExample

def inner : MerkleTreeNode :=
  Oxen.Example.dir ["x[1]"] 0x20 [Oxen.Example.file "f" [1] 1]

def root : MerkleTreeNode :=
  Oxen.Example.dir [] 0x10 [inner]

/-- HEAD has the file `f` in a directory named `x[1]`, a pattern that `x1` matches. -/
def committed : Env :=
  { RemoveExample.committed with
    db := .ofTrees [.mk (.commit { hash := 0x1 }) [root]]
    dirHashes _ := KeyedMap.insertAll ∅ [([], 0x10), (["x[1]"], 0x20)]
    path := [.rootDir, .normal "repo"]
    toLowercase := String.toLower
    globMatch pattern name := pattern = "*" || pattern = "x[1]" && name = "x1"
    glob _ := .ok []
    hashOrder := id }

/-- The directory is on disk, without the file. -/
def emptied : WorkingTree :=
  RemoveExample.noFiles.put ["x[1]"] .dir (by decide)

abbrev headIndex : DirHashes :=
  headDirHashes committed.toEnv (some { hash := 0x1 })

theorem lookup_head {path : PathBuf} {hash : MerkleHash} (h : headIndex.lookup path = some hash) :
    path = [] ∧ hash = 0x10 ∨ path = ["x[1]"] ∧ hash = 0x20 := by
  rcases KeyedMap.lookup_insert_eq_some.mp h with ⟨rfl, rfl⟩ | ⟨-, h⟩
  · exact .inr ⟨rfl, rfl⟩
  · rcases KeyedMap.lookup_insert_eq_some.mp h with ⟨rfl, rfl⟩ | ⟨-, hnone⟩
    · exact .inl ⟨rfl, rfl⟩
    · cases hnone

theorem wellPlaced_inner (path : PathBuf) : WellPlaced committed.toHost path inner := by
  refine wellPlaced_single (by decide) (by decide) fun c hc => ?_
  obtain rfl := List.mem_singleton.mp hc
  exact CommitWriter.wellPlaced_file _ _

theorem wellPlaced_root : WellPlaced committed.toHost [] root := by
  refine wellPlaced_single (by decide) (by decide) fun c hc => ?_
  obtain rfl := List.mem_singleton.mp hc
  exact wellPlaced_inner _

theorem listed_root :
    listed committed.db 0x10 = [.directory { name := ["x[1]"], hash := 0x20 }] := by
  decide

theorem listed_inner : listed committed.db 0x20 = [.file (Oxen.Example.fileNode "f" [1] 1)] := by
  decide

theorem entry_eq {path : PathBuf} {n : EMerkleTreeNode}
    (h : Entry committed.toEnv headIndex path n) :
    path = ["x[1]"] ∧ n = .directory { name := ["x[1]"], hash := 0x20 } ∨
      path = ["x[1]", "f"] ∧ n = .file (Oxen.Example.fileNode "f" [1] 1) := by
  rcases h.listed with ⟨hash, hlookup, hmem⟩
  rcases lookup_head hlookup with ⟨hparent, rfl⟩ | ⟨hparent, rfl⟩
  · rw [listed_root] at hmem
    obtain rfl := List.mem_singleton.mp hmem
    refine .inl ⟨?_, rfl⟩
    rw [← CommitWriter.dropLast_append_leafName path, hparent, ← h.name]
    rfl
  · rw [listed_inner] at hmem
    obtain rfl := List.mem_singleton.mp hmem
    refine .inr ⟨?_, rfl⟩
    rw [← CommitWriter.dropLast_append_leafName path, hparent, ← h.name]
    rfl

theorem entry_inner : Entry committed.toEnv headIndex ["x[1]"]
    (.directory { name := ["x[1]"], hash := 0x20 }) :=
  ⟨by decide, ⟨0x10, by decide, by rw [listed_root]; exact List.mem_cons_self⟩, rfl⟩

theorem headTree : HeadTree committed.toEnv headIndex where
  good path hash hlookup := by
    have hstored : root.Stored committed.db := by decide
    rcases lookup_head hlookup with ⟨rfl, rfl⟩ | ⟨rfl, rfl⟩
    · exact ⟨{ name := [], hash := 0x10 }, root.children, rfl, rfl, hstored.held, wellPlaced_root⟩
    · exact ⟨{ name := ["x[1]"], hash := 0x20 }, inner.children, rfl, rfl,
        (hstored.held.child _ (List.mem_singleton.mpr rfl)).child _ (List.mem_singleton.mpr rfl),
        wellPlaced_inner _⟩
  mem_iff path hne := by
    constructor
    · intro hmem
      rcases Option.isSome_iff_exists.mp (AList.lookup_isSome.mpr hmem) with ⟨hash, hlookup⟩
      rcases lookup_head hlookup with ⟨rfl, -⟩ | ⟨rfl, -⟩
      · exact absurd rfl hne
      · exact ⟨_, entry_inner⟩
    · rintro ⟨d, hd⟩
      rcases entry_eq hd with ⟨rfl, -⟩ | ⟨-, hfile⟩
      · decide
      · cases hfile

end BracketExample

end GlobSearch

end Oxen
