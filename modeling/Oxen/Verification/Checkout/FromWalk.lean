import Mathlib.Algebra.BigOperators.Ring.List
import Oxen.Model.Checkout
import Oxen.Verification.Tree.Reach

/-! What the walk of the from tree reports, in terms of the nodes it reaches. -/

namespace Oxen

open MerkleTreeNode

/-- The nodes the from walk gets to: everything outside shared directories and
shared virtual nodes. -/
abbrev FromReaches (common : List MerkleHash) (fromRoot : MerkleTreeNode) :
    PathBuf → MerkleTreeNode → Prop :=
  Reaches (fun _ hash => hash ∉ common) fromRoot

/-- The from walk gets to the item. -/
abbrev FromVisits (ctx : CleanupContext) (fromRoot : MerkleTreeNode) (item : WalkFromItem) :
    Prop :=
  StackWalk.Visits (visitFrom ctx) (.visit [] fromRoot) item

theorem visitFrom_file (ctx : CleanupContext) (path : PathBuf) (f : FileNode)
    (cs : List MerkleTreeNode) :
    visitFrom ctx (.visit path (.mk (.file f) cs)) =
      (visitFromFile ctx (path ++ f.name) f).map (·, []) := rfl

theorem visitFrom_directory (ctx : CleanupContext) (path : PathBuf) (d : DirNode)
    (vnodes : List MerkleTreeNode) :
    visitFrom ctx (.visit path (.mk (.directory d) vnodes)) =
      if d.hash ∈ ctx.commonNodes then .ok ({}, [])
      else
        .ok ({}, .finalizeDir (path ++ d.name) ::
          (vnodes.filter (·.hash ∉ ctx.commonNodes)).flatMap fun vnode =>
            vnode.children.map (.visit (path ++ d.name))) := rfl

private theorem visitFrom_commit_ok {ctx : CleanupContext} {path : PathBuf} {c : CommitNode}
    {cs : List MerkleTreeNode} {event : CleanupCandidates} {pushed : List WalkFromItem}
    (h : visitFrom ctx (.visit path (.mk (.commit c) cs)) = .ok (event, pushed)) :
    event = {} ∧ ∃ d vnodes, cs = [.mk (.directory d) vnodes] ∧
      pushed = [.visit path (.mk (.directory d) vnodes)] := by
  match cs with
  | [.mk (.directory d) vnodes] =>
      obtain ⟨rfl, rfl⟩ : {} = event ∧ [_] = pushed := by
        simpa [visitFrom, getRootDir, Except.map] using h
      exact ⟨rfl, d, vnodes, rfl, rfl⟩
  | [] => simp [visitFrom, getRootDir, Except.map] at h
  | [.mk (.file _) _] => simp [visitFrom, getRootDir, Except.map] at h
  | [.mk (.vnode _) _] => simp [visitFrom, getRootDir, Except.map] at h
  | [.mk (.commit _) _] => simp [visitFrom, getRootDir, Except.map] at h
  | _ :: _ :: _ => simp [visitFrom, getRootDir, Except.map] at h

private theorem visitFrom_file_ok {ctx : CleanupContext} {path : PathBuf} {f : FileNode}
    {cs : List MerkleTreeNode} {event : CleanupCandidates} {pushed : List WalkFromItem}
    (h : visitFrom ctx (.visit path (.mk (.file f) cs)) = .ok (event, pushed)) :
    visitFromFile ctx (path ++ f.name) f = .ok event ∧ pushed = [] := by
  rw [visitFrom_file] at h
  cases hf : visitFromFile ctx (path ++ f.name) f with
  | error e => simp [hf, Except.map] at h
  | ok result =>
      simp only [hf, Except.map, Except.ok.injEq, Prod.mk.injEq] at h
      exact ⟨by rw [h.1], h.2.symm⟩

/-- An item the walk visits is a reached node or the end of a reached directory. -/
theorem fromVisits_iff {ctx : CleanupContext} {fromRoot : MerkleTreeNode} {path : PathBuf}
    {node : MerkleTreeNode} :
    FromVisits ctx fromRoot (.visit path node) ↔
      FromReaches ctx.commonNodes fromRoot path node := by
  constructor
  · have hgen : ∀ item, FromVisits ctx fromRoot item → ∀ path node,
        item = .visit path node → FromReaches ctx.commonNodes fromRoot path node := by
      intro item hv
      induction hv with
      | refl =>
          rintro path node h
          obtain ⟨rfl, rfl⟩ := WalkFromItem.visit.inj h
          exact .root
      | tail _ hp ih =>
          rintro path node rfl
          obtain ⟨event, pushed, hv, hn⟩ := hp
          rename_i mid _
          match mid with
          | .finalizeDir dirPath => simp_all [visitFrom]
          | .visit q (.mk (.file f) cs) =>
              rw [(visitFrom_file_ok hv).2] at hn
              cases hn
          | .visit q (.mk (.vnode v) cs) => simp_all [visitFrom]
          | .visit q (.mk (.commit c) cs) =>
              obtain ⟨-, d, vnodes, rfl, rfl⟩ := visitFrom_commit_ok hv
              obtain ⟨rfl, rfl⟩ := WalkFromItem.visit.inj (List.mem_singleton.mp hn)
              exact .rootDir (ih _ _ rfl)
          | .visit q (.mk (.directory d) vnodes) =>
              rw [visitFrom_directory] at hv
              split at hv
              · obtain ⟨-, rfl⟩ : _ ∧ [] = pushed := by simpa using hv
                cases hn
              · rename_i hd
                obtain ⟨-, rfl⟩ : _ ∧ _ = pushed := by simpa using hv
                simp only [List.mem_cons, reduceCtorEq, List.mem_flatMap, List.mem_filter,
                  List.mem_map, false_or] at hn
                obtain ⟨vnode, ⟨hmem, hcommon⟩, child, hc, he⟩ := hn
                obtain ⟨rfl, rfl⟩ := WalkFromItem.visit.inj he
                exact .child (ih _ _ rfl) hd hmem (by simpa using hcommon) hc
    exact fun h => hgen _ h _ _ rfl
  · intro h
    induction h with
    | root => exact .refl
    | rootDir _ ih =>
        exact ih.tail ⟨{}, _, rfl, List.mem_singleton.mpr rfl⟩
    | child _ hd hv hcommon hc ih =>
        refine ih.tail ⟨{}, _, by rw [visitFrom_directory, if_neg hd], ?_⟩
        simp only [List.mem_cons, reduceCtorEq, List.mem_flatMap, List.mem_filter, List.mem_map,
          false_or]
        exact ⟨_, ⟨hv, by simpa using hcommon⟩, _, hc, rfl⟩

private theorem exists_reaches_of_finalizeDir {ctx : CleanupContext} {fromRoot : MerkleTreeNode}
    {dirPath : PathBuf} (h : FromVisits ctx fromRoot (.finalizeDir dirPath)) :
    ∃ path d vnodes, FromReaches ctx.commonNodes fromRoot path (.mk (.directory d) vnodes) ∧
      d.hash ∉ ctx.commonNodes ∧ dirPath = path ++ d.name := by
  rcases Relation.ReflTransGen.cases_tail h with heq | ⟨mid, hv, event, pushed, hvis, hn⟩
  · cases heq
  · match mid with
    | .finalizeDir dirPath => simp_all [visitFrom]
    | .visit q (.mk (.file f) cs) =>
        rw [(visitFrom_file_ok hvis).2] at hn
        cases hn
    | .visit q (.mk (.vnode v) cs) => simp_all [visitFrom]
    | .visit q (.mk (.commit c) cs) =>
        obtain ⟨-, d, vnodes, rfl, rfl⟩ := visitFrom_commit_ok hvis
        cases List.mem_singleton.mp hn
    | .visit q (.mk (.directory d) vnodes) =>
        rw [visitFrom_directory] at hvis
        split at hvis
        · obtain ⟨-, rfl⟩ : _ ∧ [] = pushed := by simpa using hvis
          cases hn
        · rename_i hd
          obtain ⟨-, rfl⟩ : _ ∧ _ = pushed := by simpa using hvis
          obtain rfl : dirPath = q ++ d.name := by simpa using hn
          exact ⟨q, d, vnodes, fromVisits_iff.mp hv, hd, rfl⟩

/-- Twice the size of a node leaves room for the removal of every directory. -/
def fromWeight : WalkFromItem → ℕ
  | .visit _ node => 2 * node.size
  | .finalizeDir _ => 1

theorem decreasing_visitFrom (ctx : CleanupContext) :
    StackWalk.Decreasing (visitFrom ctx) fromWeight where
  pos item := by
    cases item with
    | visit path node => exact Nat.mul_pos Nat.two_pos (size_pos node)
    | finalizeDir dirPath => exact Nat.one_pos
  pushed_lt item event pushed hv := by
    match item with
    | .finalizeDir dirPath =>
        obtain ⟨-, rfl⟩ := Prod.mk.inj (Except.ok.inj hv)
        simp [fromWeight]
    | .visit q (.mk (.file f) cs) =>
        rw [(visitFrom_file_ok hv).2]
        simpa [fromWeight] using size_pos _
    | .visit q (.mk (.vnode v) cs) =>
        obtain ⟨-, rfl⟩ := Prod.mk.inj (Except.ok.inj hv)
        simpa [fromWeight] using size_pos _
    | .visit q (.mk (.commit c) cs) =>
        obtain ⟨-, d, vnodes, rfl, rfl⟩ := visitFrom_commit_ok hv
        simp [fromWeight, size_mk]
    | .visit q (.mk (.directory d) vnodes) =>
        rw [visitFrom_directory] at hv
        split at hv
        · obtain ⟨-, rfl⟩ := Prod.mk.inj (Except.ok.inj hv)
          simpa [fromWeight] using size_pos _
        · obtain ⟨-, rfl⟩ := Prod.mk.inj (Except.ok.inj hv)
          have hle := sum_size_grandchildren_le (·.hash ∉ ctx.commonNodes) vnodes
          have hsum : ((((vnodes.filter (·.hash ∉ ctx.commonNodes)).flatMap fun vnode =>
              vnode.children.map (WalkFromItem.visit (q ++ d.name))).map fromWeight)).sum =
                2 * (((vnodes.filter (·.hash ∉ ctx.commonNodes)).flatMap children).map size).sum := by
            rw [← List.sum_map_mul_left]
            simp only [List.map_flatMap, List.map_map]
            rfl
          rw [List.map_cons, List.sum_cons, hsum]
          simp only [fromWeight, size_mk]
          omega

/-! ## Walking the pruned tree -/

private theorem mem_sharedHashes_of_reaches {seen : List MerkleHash} {root : MerkleTreeNode}
    {node : MerkleTreeNode} (h : ∃ p, (p, node) ∈ (root.prune seen).subtrees [])
    (hc : node.node.hasChildren = true) (hs : node.hash ∈ seen) :
    node.hash ∈ (root.loaded seen []).sharedHashes := by
  obtain ⟨p, hp⟩ := h
  simp only [loaded, List.mem_filter, decide_eq_true_eq]
  exact ⟨(mem_containerHashes_iff []).mpr ⟨p, node, hp, hc, rfl⟩, hs⟩

private theorem prune_eq_mk {seen : List MerkleHash} {t : MerkleTreeNode} {n : EMerkleTreeNode}
    {ds : List MerkleTreeNode} (h : mk n ds = t.prune seen) (hne : ds ≠ []) :
    n.hash ∉ seen ∧ ∃ cs, t = .mk n cs ∧ ds = cs.map (MerkleTreeNode.prune seen) := by
  obtain ⟨m, cs⟩ := t
  rw [prune_mk] at h
  split at h
  · rename_i hm
    obtain ⟨rfl, rfl⟩ := MerkleTreeNode.mk.inj h
    exact ⟨hm.2, cs, rfl, rfl⟩
  · exact absurd (MerkleTreeNode.mk.inj h).2 hne

private theorem prune_of_notMem {seen : List MerkleHash} {n : EMerkleTreeNode}
    (hn : n.hasChildren = true) (h : n.hash ∉ seen) (cs : List MerkleTreeNode) :
    MerkleTreeNode.prune seen (.mk n cs) = .mk n (cs.map (MerkleTreeNode.prune seen)) := by
  rw [prune_mk, if_pos ⟨hn, h⟩]

private theorem notMem_seen_of_notMem_shared {seen : List MerkleHash} {root node : MerkleTreeNode}
    (h : ∃ p, (p, node) ∈ (root.prune seen).subtrees []) (hc : node.node.hasChildren = true)
    (hs : node.hash ∉ (root.loaded seen []).sharedHashes) : node.hash ∉ seen :=
  fun hseen => hs (mem_sharedHashes_of_reaches h hc hseen)

private theorem notMem_shared_of_notMem_seen {seen : List MerkleHash} {root : MerkleTreeNode}
    {h : MerkleHash} (hs : h ∉ seen) : h ∉ (root.loaded seen []).sharedHashes := by
  simp [loaded, hs]

/-- Pruning the from tree at the seen hashes hides nothing that the walk reaches. -/
theorem fromReaches_prune_iff {db : NodeStore} (t : CommitTree db) {seen : List MerkleHash}
    (hid : t.id ∉ seen) {path : PathBuf} {node : MerkleTreeNode} :
    FromReaches (t.tree.loaded seen []).sharedHashes (t.tree.prune seen) path node ↔
      ∃ full, node = full.prune seen ∧ FromReaches seen t.tree path full := by
  constructor
  · intro h
    induction h with
    | root => exact ⟨t.tree, rfl, .root⟩
    | @rootDir path c d vnodes h ih =>
        obtain ⟨full, hp, hr⟩ := ih
        obtain ⟨-, cs, rfl, hcs⟩ := prune_eq_mk hp (by simp)
        obtain ⟨-, htree⟩ := t.eq_root_of_commit_mem hr.mem_subtrees
        obtain ⟨d', vnodes', hroot, -⟩ := t.exists_root
        obtain rfl : cs = [.mk (.directory d') vnodes'] :=
          (MerkleTreeNode.mk.inj htree).2.trans hroot
        exact ⟨.mk (.directory d') vnodes', by simpa using hcs, .rootDir hr⟩
    | @child path d vnodes vnode child h hd hv hvc hc ih =>
        obtain ⟨full, hp, hr⟩ := ih
        obtain ⟨hseen, vs, rfl, rfl⟩ := prune_eq_mk hp (List.ne_nil_of_mem hv)
        obtain ⟨v, hvm, rfl⟩ := List.mem_map.mp hv
        obtain ⟨n, cs, rfl⟩ := t.eq_vnode_of_mem hr.mem_subtrees hvm
        obtain ⟨q, hq⟩ := h.exists_mem_subtrees
        have hvseen : n.hash ∉ seen := by
          have hnot := notMem_seen_of_notMem_shared ⟨_, child_mem_subtrees hq hv⟩ (by simp; rfl) hvc
          simpa using hnot
        rw [prune_of_notMem rfl hvseen] at hc
        obtain ⟨c, hcm, rfl⟩ := List.mem_map.mp hc
        exact ⟨c, rfl, .child hr hseen hvm hvseen hcm⟩
  · rintro ⟨full, rfl, h⟩
    induction h with
    | root => exact .root
    | @rootDir path c d vnodes h ih =>
        obtain ⟨-, htree⟩ := t.eq_root_of_commit_mem h.mem_subtrees
        have hc : c.hash ∉ seen := by
          rw [show c.hash = t.id from congrArg MerkleTreeNode.hash htree]
          exact hid
        rw [prune_of_notMem rfl hc] at ih
        by_cases hd : d.hash ∈ seen
        · have hp : MerkleTreeNode.prune seen (.mk (.directory d) vnodes) = .mk (.directory d) [] := by
            rw [prune_mk, if_neg (fun h => h.2 hd)]
          simp only [List.map_cons, List.map_nil, hp] at ih ⊢
          exact .rootDir ih
        · have hp := prune_of_notMem (n := .directory d) rfl hd vnodes
          simp only [List.map_cons, List.map_nil, hp] at ih ⊢
          exact .rootDir ih
    | @child path d vnodes vnode child h hd hv hvc hc ih =>
        obtain ⟨n, cs, rfl⟩ := t.eq_vnode_of_mem h.mem_subtrees hv
        rw [prune_of_notMem rfl hd] at ih
        refine .child ih (notMem_shared_of_notMem_seen hd) (List.mem_map_of_mem hv) ?_ ?_
        · rw [hash_prune]
          exact notMem_shared_of_notMem_seen hvc
        · rw [prune_of_notMem (n := .vnode n) rfl hvc]
          exact List.mem_map_of_mem hc

/-! ## Accumulated candidates -/

theorem foldl_append_candidates (events : List CleanupCandidates) (acc : CleanupCandidates) :
    events.foldl CleanupCandidates.append acc =
      { pathsToRemove := acc.pathsToRemove ++ events.flatMap (·.pathsToRemove)
        filesToStore := acc.filesToStore ++ events.flatMap (·.filesToStore)
        cannotOverwriteEntries :=
          acc.cannotOverwriteEntries ++ events.flatMap (·.cannotOverwriteEntries) } := by
  induction events generalizing acc with
  | nil => simp
  | cons event events ih => simp [ih, CleanupCandidates.append]

theorem walkFromTree_eq_ok {ctx : CleanupContext} {root : MerkleTreeNode}
    {candidates : CleanupCandidates} (h : walkFromTree ctx root = .ok candidates) :
    ∃ events : List CleanupCandidates, candidates = events.foldl CleanupCandidates.append {} ∧
      ∀ event, event ∈ events ↔ ∃ item, FromVisits ctx root item ∧
        ∃ pushed, visitFrom ctx item = .ok (event, pushed) := by
  unfold walkFromTree at h
  rcases hw : StackWalk.walk (visitFrom ctx) (2 * root.size) [.visit [] root] with e | events
  · simp [hw, Except.map] at h
  · obtain rfl : events.foldl CleanupCandidates.append {} = candidates := by
      simpa [hw, Except.map] using h
    refine ⟨events, rfl, fun event => ?_⟩
    rw [StackWalk.mem_walk_iff (decreasing_visitFrom ctx) (by simp [fromWeight]) hw]
    simp

private theorem candidates_cases {ctx : CleanupContext} {item : WalkFromItem}
    {event : CleanupCandidates} {pushed : List WalkFromItem}
    (h : visitFrom ctx item = .ok (event, pushed)) :
    (∃ path f cs, item = .visit path (.mk (.file f) cs) ∧
      visitFromFile ctx (path ++ f.name) f = .ok event) ∨
    (∃ dirPath, item = .finalizeDir dirPath ∧
      event = { pathsToRemove := if ctx.disk.pathExists dirPath then [dirPath] else [] }) ∨
    event = {} := by
  match item with
  | .finalizeDir dirPath =>
      exact .inr (.inl ⟨dirPath, rfl, (Prod.mk.inj (Except.ok.inj h)).1.symm⟩)
  | .visit path (.mk (.file f) cs) => exact .inl ⟨path, f, cs, rfl, (visitFrom_file_ok h).1⟩
  | .visit path (.mk (.vnode v) cs) =>
      exact .inr (.inr (Prod.mk.inj (Except.ok.inj h)).1.symm)
  | .visit path (.mk (.commit c) cs) => exact .inr (.inr (visitFrom_commit_ok h).1)
  | .visit path (.mk (.directory d) vnodes) =>
      rw [visitFrom_directory] at h
      split at h <;> exact .inr (.inr (Prod.mk.inj (Except.ok.inj h)).1.symm)

/-- The walk fails only on a commit without a root directory or on a file. -/
theorem walkFromTree_isOk {ctx : CleanupContext} {root : MerkleTreeNode}
    (hcommit : ∀ path c cs, FromReaches ctx.commonNodes root path (.mk (.commit c) cs) →
      ∃ d vnodes, cs = [.mk (.directory d) vnodes])
    (hfile : ∀ path f cs, FromReaches ctx.commonNodes root path (.mk (.file f) cs) →
      ∃ event, visitFromFile ctx (path ++ f.name) f = .ok event) :
    ∃ candidates, walkFromTree ctx root = .ok candidates := by
  obtain ⟨events, hw⟩ : ∃ events,
      StackWalk.walk (visitFrom ctx) (2 * root.size) [.visit [] root] = .ok events := by
    rw [StackWalk.walk_isOk_iff (decreasing_visitFrom ctx) (by simp [fromWeight])]
    rintro ⟨item, hitem, next, hv, e, he⟩
    obtain rfl := List.mem_singleton.mp hitem
    match next with
    | .finalizeDir dirPath => cases he
    | .visit path (.mk (.vnode v) cs) => cases he
    | .visit path (.mk (.file f) cs) =>
        obtain ⟨event, hok⟩ := hfile path f cs (fromVisits_iff.mp hv)
        simp [visitFrom_file, hok, Except.map] at he
    | .visit path (.mk (.commit c) cs) =>
        obtain ⟨d, vnodes, rfl⟩ := hcommit path c cs (fromVisits_iff.mp hv)
        cases he
    | .visit path (.mk (.directory d) vnodes) =>
        rw [visitFrom_directory] at he
        split at he <;> cases he
  exact ⟨_, by rw [walkFromTree, hw]; rfl⟩

theorem visitFromFile_of_walk {ctx : CleanupContext} {root : MerkleTreeNode}
    {candidates : CleanupCandidates} (h : walkFromTree ctx root = .ok candidates)
    {path : PathBuf} {f : FileNode} {cs : List MerkleTreeNode}
    (hr : FromReaches ctx.commonNodes root path (.mk (.file f) cs)) :
    ∃ event, visitFromFile ctx (path ++ f.name) f = .ok event := by
  have hw : ∃ events,
      StackWalk.walk (visitFrom ctx) (2 * root.size) [.visit [] root] = .ok events := by
    unfold walkFromTree at h
    rcases hw : StackWalk.walk (visitFrom ctx) (2 * root.size) [.visit [] root] with e | events
    · simp [hw, Except.map] at h
    · exact ⟨events, rfl⟩
  rw [StackWalk.walk_isOk_iff (decreasing_visitFrom ctx) (by simp [fromWeight])] at hw
  cases he : visitFromFile ctx (path ++ f.name) f with
  | ok event => exact ⟨event, rfl⟩
  | error e =>
      refine absurd ⟨_, List.mem_singleton.mpr rfl, _, fromVisits_iff.mpr hr, e, ?_⟩ hw
      rw [visitFrom_file, he]
      rfl

private theorem mem_candidates_iff {ctx : CleanupContext} {root : MerkleTreeNode}
    {candidates : CleanupCandidates} (h : walkFromTree ctx root = .ok candidates) {β : Type}
    {field : CleanupCandidates → List β}
    (hfield : ∀ events : List CleanupCandidates,
      field (events.foldl CleanupCandidates.append {}) = events.flatMap field) (x : β) :
    x ∈ field candidates ↔ ∃ item event pushed, FromVisits ctx root item ∧
      visitFrom ctx item = .ok (event, pushed) ∧ x ∈ field event := by
  obtain ⟨events, rfl, hmem⟩ := walkFromTree_eq_ok h
  rw [hfield, List.mem_flatMap]
  constructor
  · rintro ⟨event, he, hx⟩
    obtain ⟨item, hv, pushed, hvis⟩ := (hmem event).mp he
    exact ⟨item, event, pushed, hv, hvis, hx⟩
  · rintro ⟨item, event, pushed, hv, hvis, hx⟩
    exact ⟨event, (hmem event).mpr ⟨item, hv, pushed, hvis⟩, hx⟩

section Candidates

variable {ctx : CleanupContext} {root : MerkleTreeNode} {candidates : CleanupCandidates}

theorem mem_conflicts_iff (h : walkFromTree ctx root = .ok candidates) {conflict : PathBuf} :
    conflict ∈ candidates.cannotOverwriteEntries ↔
      ∃ path f cs event, FromReaches ctx.commonNodes root path (.mk (.file f) cs) ∧
        visitFromFile ctx (path ++ f.name) f = .ok event ∧
        conflict ∈ event.cannotOverwriteEntries := by
  rw [mem_candidates_iff h (fun events => by simp [foldl_append_candidates])]
  constructor
  · rintro ⟨item, event, pushed, hv, hvis, hx⟩
    rcases candidates_cases hvis with ⟨path, f, cs, rfl, hok⟩ | ⟨dirPath, rfl, rfl⟩ | rfl
    · exact ⟨path, f, cs, event, fromVisits_iff.mp hv, hok, hx⟩
    · simp at hx
    · simp at hx
  · rintro ⟨path, f, cs, event, hr, hok, hx⟩
    exact ⟨_, event, [], fromVisits_iff.mpr hr, by rw [visitFrom_file, hok]; rfl, hx⟩

theorem mem_filesToStore_iff (h : walkFromTree ctx root = .ok candidates)
    {entry : MerkleHash × PathBuf} :
    entry ∈ candidates.filesToStore ↔
      ∃ path f cs event, FromReaches ctx.commonNodes root path (.mk (.file f) cs) ∧
        visitFromFile ctx (path ++ f.name) f = .ok event ∧ entry ∈ event.filesToStore := by
  rw [mem_candidates_iff h (fun events => by simp [foldl_append_candidates])]
  constructor
  · rintro ⟨item, event, pushed, hv, hvis, hx⟩
    rcases candidates_cases hvis with ⟨path, f, cs, rfl, hok⟩ | ⟨dirPath, rfl, rfl⟩ | rfl
    · exact ⟨path, f, cs, event, fromVisits_iff.mp hv, hok, hx⟩
    · simp at hx
    · simp at hx
  · rintro ⟨path, f, cs, event, hr, hok, hx⟩
    exact ⟨_, event, [], fromVisits_iff.mpr hr, by rw [visitFrom_file, hok]; rfl, hx⟩

theorem mem_pathsToRemove_of_file (h : walkFromTree ctx root = .ok candidates)
    {path : PathBuf} {f : FileNode} {cs : List MerkleTreeNode} {event : CleanupCandidates}
    (hr : FromReaches ctx.commonNodes root path (.mk (.file f) cs))
    (hok : visitFromFile ctx (path ++ f.name) f = .ok event) {removed : PathBuf}
    (hx : removed ∈ event.pathsToRemove) : removed ∈ candidates.pathsToRemove := by
  rw [mem_candidates_iff h (fun events => by simp [foldl_append_candidates])]
  exact ⟨_, event, [], fromVisits_iff.mpr hr, by rw [visitFrom_file, hok]; rfl, hx⟩

theorem pathsToRemove_cases (h : walkFromTree ctx root = .ok candidates) {removed : PathBuf}
    (hx : removed ∈ candidates.pathsToRemove) :
    (∃ path f cs event, FromReaches ctx.commonNodes root path (.mk (.file f) cs) ∧
      visitFromFile ctx (path ++ f.name) f = .ok event ∧ removed ∈ event.pathsToRemove) ∨
    ∃ path d vnodes, FromReaches ctx.commonNodes root path (.mk (.directory d) vnodes) ∧
      removed = path ++ d.name := by
  rw [mem_candidates_iff h (fun events => by simp [foldl_append_candidates])] at hx
  obtain ⟨item, event, pushed, hv, hvis, hx⟩ := hx
  rcases candidates_cases hvis with ⟨path, f, cs, rfl, hok⟩ | ⟨dirPath, rfl, rfl⟩ | rfl
  · exact .inl ⟨path, f, cs, event, fromVisits_iff.mp hv, hok, hx⟩
  · right
    obtain ⟨path, d, vnodes, hr, -, rfl⟩ := exists_reaches_of_finalizeDir hv
    refine ⟨path, d, vnodes, hr, ?_⟩
    split at hx
    · simpa using hx
    · simp at hx
  · simp at hx

end Candidates

end Oxen
