import Mathlib.Data.List.Flatten
import Oxen.Model.FastForward
import Oxen.Verification.Checkout.FromWalk

/-! What the two walks of a fast-forward merge report. -/

namespace Oxen

open MerkleTreeNode

variable {shared : List MerkleHash} {visitFile : PathBuf → FileNode → Except OxenError FileVerdict}
  {unexpected : Except OxenError MergeResult} {root : MerkleTreeNode}

theorem visitUnshared_commit_ok {path : PathBuf} {c : CommitNode} {cs : List MerkleTreeNode}
    {event : MergeResult} {pushed : List (PathBuf × MerkleTreeNode)}
    (h : visitUnshared shared visitFile unexpected (path, .mk (.commit c) cs) =
      .ok (event, pushed)) :
    event = {} ∧ ∃ d vnodes, cs = [.mk (.directory d) vnodes] ∧
      pushed = [(path, .mk (.directory d) vnodes)] := by
  match cs with
  | [.mk (.directory d) vnodes] =>
      obtain ⟨rfl, rfl⟩ : {} = event ∧ [_] = pushed := by
        simpa [visitUnshared, getRootDir, Except.map] using h
      exact ⟨rfl, d, vnodes, rfl, rfl⟩
  | [] => simp [visitUnshared, getRootDir, Except.map] at h
  | [.mk (.file _) _] => simp [visitUnshared, getRootDir, Except.map] at h
  | [.mk (.vnode _) _] => simp [visitUnshared, getRootDir, Except.map] at h
  | [.mk (.commit _) _] => simp [visitUnshared, getRootDir, Except.map] at h
  | _ :: _ :: _ => simp [visitUnshared, getRootDir, Except.map] at h

theorem visitUnshared_file_ok {path : PathBuf} {f : FileNode} {cs : List MerkleTreeNode}
    {event : MergeResult} {pushed : List (PathBuf × MerkleTreeNode)}
    (h : visitUnshared shared visitFile unexpected (path, .mk (.file f) cs) =
      .ok (event, pushed)) :
    (∃ verdict, visitFile (path ++ f.name) f = .ok verdict ∧
      event = verdict.result f (path ++ f.name)) ∧ pushed = [] := by
  simp only [visitUnshared] at h
  cases hv : visitFile (path ++ f.name) f with
  | error e => simp [hv, Except.map] at h
  | ok verdict =>
      simp only [hv, Except.map, Except.ok.injEq, Prod.mk.injEq] at h
      exact ⟨⟨verdict, rfl, h.1.symm⟩, h.2.symm⟩

theorem visitUnshared_vnode_ok {path : PathBuf} {v : VNode} {cs : List MerkleTreeNode}
    {event : MergeResult} {pushed : List (PathBuf × MerkleTreeNode)}
    (h : visitUnshared shared visitFile unexpected (path, .mk (.vnode v) cs) =
      .ok (event, pushed)) : unexpected = .ok event ∧ pushed = [] := by
  simp only [visitUnshared] at h
  cases hu : unexpected with
  | error e => simp [hu, Except.map] at h
  | ok result =>
      simp only [hu, Except.map, Except.ok.injEq, Prod.mk.injEq] at h
      exact ⟨by rw [h.1], h.2.symm⟩

theorem visitUnshared_directory (path : PathBuf) (d : DirNode) (vnodes : List MerkleTreeNode) :
    visitUnshared shared visitFile unexpected (path, .mk (.directory d) vnodes) =
      if d.hash ∈ shared then .ok ({}, [])
      else
        .ok ({}, (vnodes.filter (·.hash ∉ shared)).flatMap fun vnode =>
          vnode.children.map (path ++ d.name, ·)) := rfl

theorem visitUnshared_directory_ok {path : PathBuf} {d : DirNode} {vnodes : List MerkleTreeNode}
    {event : MergeResult} {pushed : List (PathBuf × MerkleTreeNode)}
    (h : visitUnshared shared visitFile unexpected (path, .mk (.directory d) vnodes) =
      .ok (event, pushed)) :
    event = {} ∧ (d.hash ∈ shared ∧ pushed = [] ∨
      d.hash ∉ shared ∧ pushed = (vnodes.filter (·.hash ∉ shared)).flatMap fun vnode =>
        vnode.children.map (path ++ d.name, ·)) := by
  rw [visitUnshared_directory] at h
  split at h
  · rename_i hd
    obtain ⟨rfl, rfl⟩ := Prod.mk.inj (Except.ok.inj h)
    exact ⟨rfl, .inl ⟨hd, rfl⟩⟩
  · rename_i hd
    obtain ⟨rfl, rfl⟩ := Prod.mk.inj (Except.ok.inj h)
    exact ⟨rfl, .inr ⟨hd, rfl⟩⟩

/-- The walk gets to everything outside the shared directories and virtual nodes,
whatever it finds there. -/
theorem visitsUnshared_iff {path : PathBuf} {node : MerkleTreeNode} :
    StackWalk.Visits (visitUnshared shared visitFile unexpected) ([], root) (path, node) ↔
      FromReaches shared root path node := by
  constructor
  · suffices hgen : ∀ item,
        StackWalk.Visits (visitUnshared shared visitFile unexpected) ([], root) item →
          FromReaches shared root item.1 item.2 from fun h => hgen _ h
    intro item hv
    induction hv with
    | refl => exact .root
    | tail _ hp ih =>
        obtain ⟨event, pushed, hv, hn⟩ := hp
        rename_i mid next _
        match mid with
        | (q, .mk (.file f) cs) =>
            rw [(visitUnshared_file_ok hv).2] at hn
            cases hn
        | (q, .mk (.vnode v) cs) =>
            rw [(visitUnshared_vnode_ok hv).2] at hn
            cases hn
        | (q, .mk (.commit c) cs) =>
            obtain ⟨-, d, vnodes, rfl, rfl⟩ := visitUnshared_commit_ok hv
            obtain rfl := List.mem_singleton.mp hn
            exact .rootDir ih
        | (q, .mk (.directory d) vnodes) =>
            obtain ⟨-, ⟨-, rfl⟩ | ⟨hd, rfl⟩⟩ := visitUnshared_directory_ok hv
            · cases hn
            · simp only [List.mem_flatMap, List.mem_filter, List.mem_map] at hn
              obtain ⟨vnode, ⟨hmem, hshared⟩, child, hc, rfl⟩ := hn
              exact .child ih hd hmem (by simpa using hshared) hc
  · intro h
    induction h with
    | root => exact .refl
    | rootDir _ ih => exact ih.tail ⟨{}, _, rfl, List.mem_singleton.mpr rfl⟩
    | child _ hd hv hshared hc ih =>
        refine ih.tail ⟨{}, _, by rw [visitUnshared_directory, if_neg hd], ?_⟩
        simp only [List.mem_flatMap, List.mem_filter, List.mem_map]
        exact ⟨_, ⟨hv, by simpa using hshared⟩, _, hc, rfl⟩

theorem decreasing_visitUnshared :
    StackWalk.Decreasing (visitUnshared shared visitFile unexpected)
      (fun item : PathBuf × MerkleTreeNode => item.2.size) where
  pos item := size_pos item.2
  pushed_lt item event pushed hv := by
    match item with
    | (q, .mk (.file f) cs) =>
        rw [(visitUnshared_file_ok hv).2]
        exact size_pos _
    | (q, .mk (.vnode v) cs) =>
        rw [(visitUnshared_vnode_ok hv).2]
        exact size_pos _
    | (q, .mk (.commit c) cs) =>
        obtain ⟨-, d, vnodes, rfl, rfl⟩ := visitUnshared_commit_ok hv
        simp [size_mk]
    | (q, .mk (.directory d) vnodes) =>
        obtain ⟨-, ⟨-, rfl⟩ | ⟨-, rfl⟩⟩ := visitUnshared_directory_ok hv
        · exact size_pos _
        · have hle := sum_size_grandchildren_le (·.hash ∉ shared) vnodes
          have hsum : ((vnodes.filter (·.hash ∉ shared)).flatMap fun vnode =>
              vnode.children.map (q ++ d.name, ·)).map (fun item => item.2.size) =
                ((vnodes.filter (·.hash ∉ shared)).flatMap children).map size := by
            simp only [List.map_flatMap, List.map_map]
            rfl
          rw [hsum, size_mk]
          omega

/-- Nothing on the way of a walk stops it except the files. -/
structure Walkable (shared : List MerkleHash) (root : MerkleTreeNode) : Prop where
  commit : ∀ path c cs, FromReaches shared root path (.mk (.commit c) cs) →
    ∃ d vnodes, cs = [.mk (.directory d) vnodes]
  vnode : ∀ path v cs, ¬ FromReaches shared root path (.mk (.vnode v) cs)

theorem foldl_append_mergeResult (events : List MergeResult) (acc : MergeResult) :
    events.foldl MergeResult.append acc =
      { entriesToRestore := acc.entriesToRestore ++ events.flatMap (·.entriesToRestore)
        cannotOverwriteEntries :=
          acc.cannotOverwriteEntries ++ events.flatMap (·.cannotOverwriteEntries)
        seenFiles := acc.seenFiles ++ events.flatMap (·.seenFiles) } := by
  induction events generalizing acc with
  | nil => simp
  | cons event events ih => simp [ih, MergeResult.append]

section Walk

variable (hwalk : Walkable shared root)

theorem walkUnshared_eq_ok {result : MergeResult}
    (h : walkUnshared shared visitFile unexpected root = .ok result) :
    ∃ events, StackWalk.walk (visitUnshared shared visitFile unexpected) root.size [([], root)] =
      .ok events ∧ result = events.foldl MergeResult.append {} := by
  unfold walkUnshared at h
  cases hw : StackWalk.walk (visitUnshared shared visitFile unexpected) root.size [([], root)] with
  | error e => simp [hw, Except.map] at h
  | ok events => exact ⟨events, rfl, by simpa [hw, Except.map, eq_comm] using h⟩

include hwalk

/-- A walk succeeds exactly when every file it gets to does. -/
theorem walkUnshared_isOk_iff :
    (∃ result, walkUnshared shared visitFile unexpected root = .ok result) ↔
      ∀ path f cs, FromReaches shared root path (.mk (.file f) cs) →
        ∃ verdict, visitFile (path ++ f.name) f = .ok verdict := by
  have hiff := @StackWalk.walk_isOk_iff _ _ _ (visitUnshared shared visitFile unexpected) _
    decreasing_visitUnshared root.size [([], root)] (by simp)
  have hmap : (∃ result, walkUnshared shared visitFile unexpected root = .ok result) ↔
      ∃ events, StackWalk.walk (visitUnshared shared visitFile unexpected) root.size
        [([], root)] = .ok events := by
    unfold walkUnshared
    cases StackWalk.walk (visitUnshared shared visitFile unexpected) root.size [([], root)] <;>
      simp [Except.map]
  rw [hmap, hiff]
  constructor
  · intro hnone path f cs hr
    cases hv : visitFile (path ++ f.name) f with
    | ok verdict => exact ⟨verdict, rfl⟩
    | error e =>
        refine absurd ⟨_, List.mem_singleton.mpr rfl, _, visitsUnshared_iff.mpr hr, e, ?_⟩ hnone
        simp [visitUnshared, hv, Except.map]
  · rintro hfile ⟨item, hitem, ⟨path, node⟩, hv, e, he⟩
    obtain rfl := List.mem_singleton.mp hitem
    have hr := visitsUnshared_iff.mp hv
    obtain ⟨n, cs⟩ := node
    cases n with
    | file f =>
        obtain ⟨verdict, hok⟩ := hfile path f cs hr
        simp [visitUnshared, hok, Except.map] at he
    | directory d =>
        rw [visitUnshared_directory] at he
        split at he <;> cases he
    | vnode v => exact hwalk.vnode path v cs hr
    | commit c =>
        obtain ⟨d, vnodes, rfl⟩ := hwalk.commit path c cs hr
        cases he

/-- A failed walk fails as one of its files does. -/
theorem exists_of_walkUnshared_error {e : OxenError}
    (h : walkUnshared shared visitFile unexpected root = .error e) :
    ∃ path f cs, FromReaches shared root path (.mk (.file f) cs) ∧
      visitFile (path ++ f.name) f = .error e := by
  unfold walkUnshared at h
  cases hw : StackWalk.walk (visitUnshared shared visitFile unexpected) root.size [([], root)] with
  | ok events => simp [hw, Except.map] at h
  | error e' =>
      obtain rfl : e' = e := by simpa [hw, Except.map] using h
      obtain ⟨item, hitem, ⟨path, n, cs⟩, hv, he⟩ := StackWalk.exists_of_walk_error hw
      obtain rfl := List.mem_singleton.mp hitem
      have hr := visitsUnshared_iff.mp hv
      cases n with
      | file f =>
          refine ⟨path, f, cs, hr, ?_⟩
          simp only [visitUnshared] at he
          cases hf : visitFile (path ++ f.name) f with
          | error e₁ => simpa [hf, Except.map] using he
          | ok verdict => simp [hf, Except.map] at he
      | directory d =>
          rw [visitUnshared_directory] at he
          split at he <;> cases he
      | vnode v => exact absurd hr (hwalk.vnode path v cs)
      | commit c =>
          obtain ⟨d, vnodes, rfl⟩ := hwalk.commit path c cs hr
          cases he

private theorem mem_result_iff {result : MergeResult}
    (h : walkUnshared shared visitFile unexpected root = .ok result) {β : Type}
    {field : MergeResult → List β} (hnil : field {} = [])
    (hfield : ∀ events : List MergeResult,
      field (events.foldl MergeResult.append {}) = events.flatMap field) (x : β) :
    x ∈ field result ↔
      ∃ path f cs verdict, FromReaches shared root path (.mk (.file f) cs) ∧
        visitFile (path ++ f.name) f = .ok verdict ∧
        x ∈ field (verdict.result f (path ++ f.name)) := by
  obtain ⟨events, hw, rfl⟩ := walkUnshared_eq_ok h
  have hmem := StackWalk.mem_walk_iff decreasing_visitUnshared (by simp) hw
  rw [hfield, List.mem_flatMap]
  constructor
  · rintro ⟨event, he, hx⟩
    obtain ⟨item, hitem, ⟨path, n, cs⟩, hv, pushed, hvis⟩ := (hmem event).mp he
    obtain rfl := List.mem_singleton.mp hitem
    have hr := visitsUnshared_iff.mp hv
    cases n with
    | file f =>
        obtain ⟨⟨verdict, hok, rfl⟩, -⟩ := visitUnshared_file_ok hvis
        exact ⟨path, f, cs, verdict, hr, hok, hx⟩
    | directory d =>
        rw [(visitUnshared_directory_ok hvis).1, hnil] at hx
        cases hx
    | vnode v => exact absurd hr (hwalk.vnode path v cs)
    | commit c =>
        rw [(visitUnshared_commit_ok hvis).1, hnil] at hx
        cases hx
  · rintro ⟨path, f, cs, verdict, hr, hok, hx⟩
    refine ⟨_, (hmem _).mpr ⟨_, List.mem_singleton.mpr rfl, _, visitsUnshared_iff.mpr hr, [], ?_⟩, hx⟩
    simp [visitUnshared, hok, Except.map]

variable {result : MergeResult}
  (h : walkUnshared shared visitFile unexpected root = .ok result)

include h

theorem mem_entriesToRestore_iff {path : PathBuf} {f : FileNode} :
    ⟨f, path⟩ ∈ result.entriesToRestore ↔
      (∃ parent cs, FromReaches shared root parent (.mk (.file f) cs) ∧ path = parent ++ f.name) ∧
        visitFile path f = .ok .restore := by
  rw [mem_result_iff hwalk h rfl (fun events => by simp [foldl_append_mergeResult])]
  constructor
  · rintro ⟨parent, g, cs, verdict, hr, hok, hx⟩
    simp only [FileVerdict.result] at hx
    split at hx
    · rename_i hv
      obtain ⟨rfl, rfl⟩ := FileToRestore.mk.inj (List.mem_singleton.mp hx)
      exact ⟨⟨parent, cs, hr, rfl⟩, hv ▸ hok⟩
    · cases hx
  · rintro ⟨⟨parent, cs, hr, rfl⟩, hok⟩
    exact ⟨parent, f, cs, .restore, hr, hok, by simp [FileVerdict.result]⟩

theorem mem_mergeConflicts_iff {path : PathBuf} :
    path ∈ result.cannotOverwriteEntries ↔
      ∃ parent f cs, FromReaches shared root parent (.mk (.file f) cs) ∧
        path = parent ++ f.name ∧ visitFile path f = .ok .conflict := by
  rw [mem_result_iff hwalk h rfl (fun events => by simp [foldl_append_mergeResult])]
  constructor
  · rintro ⟨parent, g, cs, verdict, hr, hok, hx⟩
    simp only [FileVerdict.result] at hx
    split at hx
    · rename_i hv
      obtain rfl := List.mem_singleton.mp hx
      exact ⟨parent, g, cs, hr, rfl, hv ▸ hok⟩
    · cases hx
  · rintro ⟨parent, f, cs, hr, rfl, hok⟩
    exact ⟨parent, f, cs, .conflict, hr, hok, by simp [FileVerdict.result]⟩

theorem mem_seenFiles_iff {path : PathBuf} :
    path ∈ result.seenFiles ↔
      ∃ parent f cs, FromReaches shared root parent (.mk (.file f) cs) ∧ path = parent ++ f.name := by
  rw [mem_result_iff hwalk h rfl (fun events => by simp [foldl_append_mergeResult])]
  constructor
  · rintro ⟨parent, g, cs, verdict, hr, -, hx⟩
    exact ⟨parent, g, cs, hr, by simpa [FileVerdict.result] using hx⟩
  · rintro ⟨parent, f, cs, hr, rfl⟩
    obtain ⟨verdict, hok⟩ := (walkUnshared_isOk_iff hwalk).mp ⟨result, h⟩ parent f cs hr
    exact ⟨parent, f, cs, verdict, hr, hok, by simp [FileVerdict.result]⟩

end Walk

/-- With distinct file paths no entry is restored twice. -/
theorem nodup_entriesToRestore {result : MergeResult}
    (h : walkUnshared shared visitFile unexpected root = .ok result)
    (hun : ∀ event, unexpected = .ok event → event = {})
    (hvnodes : ∀ p d vnodes, (p, mk (.directory d) vnodes) ∈ root.subtrees [] →
      ∀ vnode ∈ vnodes, ∃ v cs, vnode = .mk (.vnode v) cs)
    (hnodup : ((root.files []).map Prod.fst).Nodup) :
    (result.entriesToRestore.map (·.path)).Nodup := by
  obtain ⟨events, hw, rfl⟩ := walkUnshared_eq_ok h
  have hsub := @StackWalk.walk_subperm _ _ _ _ _
    (fun event : MergeResult => event.entriesToRestore.map (·.path))
    (fun item : PathBuf × MerkleTreeNode => (item.2.files item.1).map Prod.fst)
    (· ∈ root.subtrees []) ?_ ?_ _ _ events (by simpa using self_mem_subtrees [] root) hw
  · rw [foldl_append_mergeResult, List.nil_append, List.map_flatMap]
    simp only [List.flatMap_singleton] at hsub
    obtain ⟨l, hperm, hsub⟩ := hsub
    exact hperm.nodup_iff.mp (hnodup.sublist hsub)
  · rintro ⟨q, n, cs⟩ event pushed hmem hv next hn
    cases n with
    | file f =>
        rw [(visitUnshared_file_ok hv).2] at hn
        cases hn
    | vnode v =>
        rw [(visitUnshared_vnode_ok hv).2] at hn
        cases hn
    | commit c =>
        obtain ⟨-, d, vnodes, rfl, rfl⟩ := visitUnshared_commit_ok hv
        obtain rfl := List.mem_singleton.mp hn
        exact child_mem_subtrees hmem (List.mem_singleton.mpr rfl)
    | directory d =>
        obtain ⟨-, ⟨-, rfl⟩ | ⟨-, rfl⟩⟩ := visitUnshared_directory_ok hv
        · cases hn
        · simp only [List.mem_flatMap, List.mem_filter, List.mem_map] at hn
          obtain ⟨vnode, ⟨hvm, -⟩, child, hc, rfl⟩ := hn
          obtain ⟨v, ds, rfl⟩ := hvnodes q d cs hmem vnode hvm
          exact child_mem_subtrees (child_mem_subtrees hmem hvm) hc
  · rintro ⟨q, n, cs⟩ event pushed hmem hv
    cases n with
    | file f =>
        obtain ⟨⟨verdict, -, rfl⟩, rfl⟩ := visitUnshared_file_ok hv
        have hself : (q ++ f.name, f) ∈ (mk (.file f) cs).files q :=
          mem_files_iff.mpr ⟨q, cs, self_mem_subtrees q _, rfl⟩
        cases verdict with
        | restore =>
            simpa [FileVerdict.result] using ⟨_, hself⟩
        | keep => exact List.nil_subperm
        | conflict => exact List.nil_subperm
    | vnode v =>
        obtain ⟨hok, rfl⟩ := visitUnshared_vnode_ok hv
        rw [hun event hok]
        exact List.nil_subperm
    | commit c =>
        obtain ⟨rfl, d, vnodes, rfl, rfl⟩ := visitUnshared_commit_ok hv
        rw [files_mk rfl]
        simpa [EMerkleTreeNode.ownPath] using List.Subperm.refl _
    | directory d =>
        obtain ⟨rfl, ⟨-, rfl⟩ | ⟨-, rfl⟩⟩ := visitUnshared_directory_ok hv
        · exact List.nil_subperm
        · have hfiles : ∀ vnode ∈ cs, vnode.files (q ++ d.name) =
              vnode.children.flatMap (files (q ++ d.name)) := by
            intro vnode hvm
            obtain ⟨v, ds, rfl⟩ := hvnodes q d cs hmem vnode hvm
            exact files_mk rfl _ _
          have hpushed : (((cs.filter (·.hash ∉ shared)).flatMap fun vnode =>
              vnode.children.map (q ++ d.name, ·)).flatMap fun item : PathBuf × MerkleTreeNode =>
                (item.2.files item.1).map Prod.fst) =
              ((cs.filter (·.hash ∉ shared)).flatMap (files (q ++ d.name))).map Prod.fst := by
            rw [List.map_flatMap, List.flatMap_assoc]
            refine List.flatMap_congr fun vnode hvm => ?_
            rw [hfiles vnode (List.mem_filter.mp hvm).1, List.flatMap_map, List.map_flatMap]
          rw [List.map_nil, List.nil_append, hpushed, files_mk rfl]
          refine (List.Sublist.map _ ?_).subperm
          exact List.filter_sublist.flatMap _

end Oxen
