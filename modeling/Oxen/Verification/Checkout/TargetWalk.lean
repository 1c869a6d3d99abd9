import Oxen.Model.Checkout
import Oxen.Verification.Tree.Reach

/-! What the walk of the target tree reports, in terms of the nodes it reaches. -/

namespace Oxen

open MerkleTreeNode

/-- The nodes the target walk gets to when no directory makes it stop. Shared
directories and virtual nodes are passed over where the directory is on disk. -/
abbrev TargetReaches (disk : WorkingTree) (common : List MerkleHash) (target : MerkleTreeNode) :
    PathBuf → MerkleTreeNode → Prop :=
  Reaches (fun dirPath hash => disk.isDir dirPath → hash ∉ common) target

theorem mem_pushTargetChildren {ctx : CheckoutContext} {dirPath : PathBuf} {hash : MerkleHash}
    {vnodes : List MerkleTreeNode} {item : PathBuf × MerkleTreeNode} :
    item ∈ pushTargetChildren ctx dirPath hash vnodes ↔
      item.1 = dirPath ∧ ∃ vnode ∈ vnodes, item.2 ∈ vnode.children ∧
        (ctx.disk.isDir dirPath → hash ∉ ctx.commonNodes ∧ vnode.hash ∉ ctx.commonNodes) := by
  obtain ⟨path, child⟩ := item
  unfold pushTargetChildren
  split
  · rename_i h
    simp only [List.not_mem_nil, false_iff]
    rintro ⟨-, vnode, -, -, hc⟩
    exact (hc h.2).1 h.1
  · rename_i h
    simp only [List.mem_flatMap, List.mem_filter, List.mem_map, Prod.mk.injEq, decide_eq_true_eq,
      Bool.not_eq_true']
    constructor
    · rintro ⟨vnode, ⟨hv, hw⟩, c, hc, rfl, rfl⟩
      refine ⟨rfl, vnode, hv, hc, fun hd => ⟨fun hh => h ⟨hh, hd⟩, ?_⟩⟩
      exact hw.resolve_left (by simp [hd])
    · rintro ⟨rfl, vnode, hv, hc, hw⟩
      refine ⟨vnode, ⟨hv, ?_⟩, child, hc, rfl, rfl⟩
      cases hd : ctx.disk.isDir path with
      | true => exact .inr (hw hd).2
      | false => exact .inl rfl

/-! ## Visited nodes -/

/-- The target walk gets to the node. -/
abbrev TargetVisits (ctx : CheckoutContext) (target : MerkleTreeNode) (path : PathBuf)
    (node : MerkleTreeNode) : Prop :=
  StackWalk.Visits (visitTarget ctx) ([], target) (path, node)

theorem visitTarget_file (ctx : CheckoutContext) (path : PathBuf) (f : FileNode)
    (cs : List MerkleTreeNode) :
    visitTarget ctx (path, .mk (.file f) cs) =
      (targetFileVerdict ctx (path ++ f.name) f).map fun verdict =>
        ({ filesToRestore := if verdict = .restore then [⟨f, path ++ f.name⟩] else []
           cannotOverwriteEntries := if verdict = .conflict then [path ++ f.name] else []
           seenPaths := [path ++ f.name] }, []) := by
  simp only [visitTarget, visitTargetFile]
  cases targetFileVerdict ctx (path ++ f.name) f <;> rfl

/-- A directory pushes its children unless it stops the walk. -/
theorem pushes_directory_iff {ctx : CheckoutContext} {path : PathBuf} {d : DirNode}
    {vnodes : List MerkleTreeNode} {next : PathBuf × MerkleTreeNode} :
    StackWalk.Pushes (visitTarget ctx) (path, .mk (.directory d) vnodes) next ↔
      (∃ verdict, targetDirVerdict ctx (path ++ d.name) = .ok verdict ∧ verdict ≠ .conflict) ∧
        next ∈ pushTargetChildren ctx (path ++ d.name) d.hash vnodes := by
  simp only [StackWalk.Pushes, visitTarget]
  cases targetDirVerdict ctx (path ++ d.name) with
  | error e => simp [Except.map]
  | ok verdict => cases verdict <;> simp [Except.map]

theorem pushes_commit_iff {ctx : CheckoutContext} {path : PathBuf} {c : CommitNode}
    {cs : List MerkleTreeNode} {next : PathBuf × MerkleTreeNode} :
    StackWalk.Pushes (visitTarget ctx) (path, .mk (.commit c) cs) next ↔
      ∃ d vnodes, cs = [.mk (.directory d) vnodes] ∧ next = (path, .mk (.directory d) vnodes) := by
  simp only [StackWalk.Pushes, visitTarget]
  match cs with
  | [.mk (.directory d) vnodes] => simp [getRootDir, Except.map]
  | [] => simp [getRootDir, Except.map]
  | [.mk (.file _) _] => simp [getRootDir, Except.map]
  | [.mk (.vnode _) _] => simp [getRootDir, Except.map]
  | [.mk (.commit _) _] => simp [getRootDir, Except.map]
  | _ :: _ :: _ => simp [getRootDir, Except.map]

theorem not_pushes_file {ctx : CheckoutContext} {path : PathBuf} {f : FileNode}
    {cs : List MerkleTreeNode} {next : PathBuf × MerkleTreeNode} :
    ¬ StackWalk.Pushes (visitTarget ctx) (path, .mk (.file f) cs) next := by
  rintro ⟨event, pushed, hv, hn⟩
  rw [visitTarget_file] at hv
  cases hr : targetFileVerdict ctx (path ++ f.name) f with
  | error e => simp [hr, Except.map] at hv
  | ok verdict =>
      obtain ⟨-, rfl⟩ : _ ∧ [] = pushed := by simpa [hr, Except.map] using hv
      simp at hn

theorem not_pushes_vnode {ctx : CheckoutContext} {path : PathBuf} {v : VNode}
    {cs : List MerkleTreeNode} {next : PathBuf × MerkleTreeNode} :
    ¬ StackWalk.Pushes (visitTarget ctx) (path, .mk (.vnode v) cs) next := by
  rintro ⟨event, pushed, hv, -⟩
  simp [visitTarget] at hv

theorem TargetVisits.reaches {ctx : CheckoutContext} {target node : MerkleTreeNode}
    {path : PathBuf} (h : TargetVisits ctx target path node) :
    TargetReaches ctx.disk ctx.commonNodes target path node := by
  have hgen : ∀ item, StackWalk.Visits (visitTarget ctx) ([], target) item →
      TargetReaches ctx.disk ctx.commonNodes target item.1 item.2 := by
    intro item hv
    induction hv with
    | refl => exact .root
    | tail _ hp ih =>
        rename_i mid next _
        obtain ⟨path, n, cs⟩ := mid
        cases n with
        | file f => exact absurd hp not_pushes_file
        | vnode v => exact absurd hp not_pushes_vnode
        | commit c =>
            obtain ⟨d, vnodes, rfl, rfl⟩ := pushes_commit_iff.mp hp
            exact .rootDir ih
        | directory d =>
            obtain ⟨hpath, vnode, hv, hc, hw⟩ :=
              mem_pushTargetChildren.mp (pushes_directory_iff.mp hp).2
            rw [hpath]
            exact .child ih (fun hdir => (hw hdir).1) hv (fun hdir => (hw hdir).2) hc
  exact hgen _ h

/-- The directory makes the walk stop above its children. -/
def StopsAt (ctx : CheckoutContext) (path : PathBuf) (d : DirNode) : Prop :=
  ¬ ∃ verdict, targetDirVerdict ctx (path ++ d.name) = .ok verdict ∧ verdict ≠ .conflict

theorem TargetReaches.visits_or_stops {ctx : CheckoutContext} {target node : MerkleTreeNode}
    {path : PathBuf} (h : TargetReaches ctx.disk ctx.commonNodes target path node) :
    TargetVisits ctx target path node ∨ ∃ q d vnodes,
      TargetVisits ctx target q (.mk (.directory d) vnodes) ∧ StopsAt ctx q d := by
  induction h with
  | root => exact .inl .refl
  | rootDir _ ih =>
      rcases ih with hv | hs
      · exact .inl (hv.tail (pushes_commit_iff.mpr ⟨_, _, rfl, rfl⟩))
      · exact .inr hs
  | @child path d vnodes vnode child hr hd hv hp hc ih =>
      rcases ih with hvis | hs
      · by_cases hstop : StopsAt ctx path d
        · exact .inr ⟨path, d, vnodes, hvis, hstop⟩
        · refine .inl (hvis.tail (pushes_directory_iff.mpr ⟨not_not.mp hstop, ?_⟩))
          exact mem_pushTargetChildren.mpr ⟨rfl, vnode, hv, hc, fun hdir => ⟨hd hdir, hp hdir⟩⟩
      · exact .inr hs

/-! ## Accumulated results -/

theorem foldl_append_result (events : List CheckoutResult) (acc : CheckoutResult) :
    events.foldl CheckoutResult.append acc =
      { filesToRestore := acc.filesToRestore ++ events.flatMap (·.filesToRestore)
        cannotOverwriteEntries :=
          acc.cannotOverwriteEntries ++ events.flatMap (·.cannotOverwriteEntries)
        dirReplacements := acc.dirReplacements ++ events.flatMap (·.dirReplacements)
        seenPaths := acc.seenPaths ++ events.flatMap (·.seenPaths) } := by
  induction events generalizing acc with
  | nil => simp
  | cons event events ih => simp [ih, CheckoutResult.append]


theorem decreasing_visitTarget (ctx : CheckoutContext) :
    StackWalk.Decreasing (visitTarget ctx) fun item => item.2.size where
  pos item := size_pos item.2
  pushed_lt item event pushed hv := by
    obtain ⟨path, n, cs⟩ := item
    cases n with
    | file f =>
        have hn : pushed = [] := by
          refine List.eq_nil_iff_forall_not_mem.mpr fun next hn => ?_
          exact not_pushes_file ⟨event, pushed, hv, hn⟩
        simpa [hn] using size_pos _
    | vnode v => simp [visitTarget] at hv
    | commit c =>
        have hr : ∃ d vnodes, cs = [.mk (.directory d) vnodes] ∧
            pushed = [(path, .mk (.directory d) vnodes)] := by
          match cs with
          | [.mk (.directory d) vnodes] =>
              refine ⟨d, vnodes, rfl, ?_⟩
              simpa [visitTarget, getRootDir, Except.map, eq_comm] using congrArg (·.map Prod.snd) hv
          | [] => simp [visitTarget, getRootDir, Except.map] at hv
          | [.mk (.file _) _] => simp [visitTarget, getRootDir, Except.map] at hv
          | [.mk (.vnode _) _] => simp [visitTarget, getRootDir, Except.map] at hv
          | [.mk (.commit _) _] => simp [visitTarget, getRootDir, Except.map] at hv
          | _ :: _ :: _ => simp [visitTarget, getRootDir, Except.map] at hv
        obtain ⟨d, vnodes, rfl, rfl⟩ := hr
        simp [size_mk]
    | directory d =>
        have hp : pushed = [] ∨ pushed = pushTargetChildren ctx (path ++ d.name) d.hash cs := by
          simp only [visitTarget] at hv
          cases hd : targetDirVerdict ctx (path ++ d.name) with
          | error e => simp [hd, Except.map] at hv
          | ok verdict => cases verdict <;> simp_all [Except.map]
        rcases hp with rfl | rfl
        · simpa using size_pos _
        · unfold pushTargetChildren
          split
          · simpa using size_pos _
          · have := sum_size_grandchildren_le (fun vnode =>
              !ctx.disk.isDir (path ++ d.name) ∨ vnode.hash ∉ ctx.commonNodes) cs
            rw [size_mk, Nat.lt_one_add_iff]
            refine le_of_eq_of_le ?_ this
            simp only [List.map_flatMap, List.map_map, Function.comp_def]

/-- A finished walk holds the events of the visited nodes. -/
theorem walkTargetTree_eq_ok {ctx : CheckoutContext} {target : MerkleTreeNode}
    {results : CheckoutResult} (h : walkTargetTree ctx target = .ok results) :
    ∃ events : List CheckoutResult, results = events.foldl CheckoutResult.append {} ∧
      ∀ event, event ∈ events ↔ ∃ path node, TargetVisits ctx target path node ∧
        ∃ pushed, visitTarget ctx (path, node) = .ok (event, pushed) := by
  unfold walkTargetTree at h
  rcases hw : StackWalk.walk (visitTarget ctx) target.size [([], target)] with e | events
  · simp [hw, Except.map] at h
  · obtain rfl : events.foldl CheckoutResult.append {} = results := by
      simpa [hw, Except.map] using h
    refine ⟨events, rfl, fun event => ?_⟩
    rw [StackWalk.mem_walk_iff (decreasing_visitTarget ctx) (by simp) hw]
    simp

private theorem mem_field_iff {ctx : CheckoutContext} {target : MerkleTreeNode}
    {results : CheckoutResult} (h : walkTargetTree ctx target = .ok results) {β : Type}
    {field : CheckoutResult → List β}
    (hfield : ∀ events : List CheckoutResult,
      field (events.foldl CheckoutResult.append {}) = events.flatMap field) (x : β) :
    x ∈ field results ↔ ∃ path node, TargetVisits ctx target path node ∧
      ∃ event pushed, visitTarget ctx (path, node) = .ok (event, pushed) ∧ x ∈ field event := by
  obtain ⟨events, rfl, hmem⟩ := walkTargetTree_eq_ok h
  rw [hfield, List.mem_flatMap]
  constructor
  · rintro ⟨event, he, hx⟩
    obtain ⟨path, node, hv, pushed, hvis⟩ := (hmem event).mp he
    exact ⟨path, node, hv, event, pushed, hvis, hx⟩
  · rintro ⟨path, node, hv, event, pushed, hvis, hx⟩
    exact ⟨event, (hmem event).mpr ⟨path, node, hv, pushed, hvis⟩, hx⟩

theorem visitTarget_directory_ok {ctx : CheckoutContext} {path : PathBuf} {d : DirNode}
    {vnodes : List MerkleTreeNode} {event : CheckoutResult}
    {pushed : List (PathBuf × MerkleTreeNode)}
    (h : visitTarget ctx (path, .mk (.directory d) vnodes) = .ok (event, pushed)) :
    ∃ verdict, targetDirVerdict ctx (path ++ d.name) = .ok verdict ∧ event =
      match verdict with
      | .clear => {}
      | .replace fromHash => { dirReplacements := [⟨path ++ d.name, fromHash⟩] }
      | .conflict => { cannotOverwriteEntries := [path ++ d.name] } := by
  simp only [visitTarget] at h
  cases hd : targetDirVerdict ctx (path ++ d.name) with
  | error e => simp [hd, Except.map] at h
  | ok verdict =>
      refine ⟨verdict, rfl, ?_⟩
      cases verdict <;> simp_all [Except.map]

/-- Commits report nothing and virtual nodes are never visited successfully. -/
private theorem event_cases {ctx : CheckoutContext} {path : PathBuf} {node : MerkleTreeNode}
    {event : CheckoutResult} {pushed : List (PathBuf × MerkleTreeNode)}
    (h : visitTarget ctx (path, node) = .ok (event, pushed)) :
    (∃ f cs verdict, node = .mk (.file f) cs ∧ targetFileVerdict ctx (path ++ f.name) f = .ok verdict ∧
      event = { filesToRestore := if verdict = .restore then [⟨f, path ++ f.name⟩] else []
                cannotOverwriteEntries := if verdict = .conflict then [path ++ f.name] else []
                seenPaths := [path ++ f.name] }) ∨
    (∃ d vnodes verdict, node = .mk (.directory d) vnodes ∧
      targetDirVerdict ctx (path ++ d.name) = .ok verdict ∧ event =
        match verdict with
        | .clear => {}
        | .replace fromHash => { dirReplacements := [⟨path ++ d.name, fromHash⟩] }
        | .conflict => { cannotOverwriteEntries := [path ++ d.name] }) ∨ event = {} := by
  obtain ⟨n, cs⟩ := node
  cases n with
  | file f =>
      rw [visitTarget_file] at h
      cases hr : targetFileVerdict ctx (path ++ f.name) f with
      | error e => simp [hr, Except.map] at h
      | ok verdict =>
          simp only [hr, Except.map, Except.ok.injEq, Prod.mk.injEq] at h
          exact .inl ⟨f, cs, verdict, rfl, hr, h.1.symm⟩
  | directory d =>
      obtain ⟨verdict, hd, he⟩ := visitTarget_directory_ok h
      exact .inr (.inl ⟨d, cs, verdict, rfl, hd, he⟩)
  | vnode v => simp [visitTarget] at h
  | commit c =>
      simp only [visitTarget] at h
      cases hr : getRootDir (.mk (.commit c) cs) with
      | error e => simp [hr, Except.map] at h
      | ok root =>
          simp only [hr, Except.map, Except.ok.injEq, Prod.mk.injEq] at h
          exact .inr (.inr h.1.symm)

section Results

variable {ctx : CheckoutContext} {target : MerkleTreeNode} {results : CheckoutResult}

theorem mem_filesToRestore_iff (h : walkTargetTree ctx target = .ok results) {f : FileNode}
    {filePath : PathBuf} :
    ⟨f, filePath⟩ ∈ results.filesToRestore ↔
      ∃ path cs, TargetVisits ctx target path (.mk (.file f) cs) ∧ filePath = path ++ f.name ∧
        targetFileVerdict ctx filePath f = .ok .restore := by
  rw [mem_field_iff h (fun events => by simp [foldl_append_result])]
  constructor
  · rintro ⟨path, node, hv, event, pushed, hvis, hx⟩
    rcases event_cases hvis with ⟨g, cs, verdict, rfl, hr, rfl⟩ | ⟨d, vnodes, verdict, rfl, hr, rfl⟩ | rfl
    · by_cases hver : verdict = .restore
      · obtain ⟨rfl, rfl⟩ : f = g ∧ filePath = path ++ g.name := by simpa [hver] using hx
        exact ⟨path, cs, hv, rfl, hver ▸ hr⟩
      · simp [hver] at hx
    · cases verdict <;> simp at hx
    · simp at hx
  · rintro ⟨path, cs, hv, rfl, hr⟩
    exact ⟨path, _, hv, _, [], by rw [visitTarget_file, hr]; rfl, by simp⟩

theorem mem_seenPaths_iff (h : walkTargetTree ctx target = .ok results) {filePath : PathBuf} :
    filePath ∈ results.seenPaths ↔
      ∃ path f cs, TargetVisits ctx target path (.mk (.file f) cs) ∧ filePath = path ++ f.name ∧
        ∃ verdict, targetFileVerdict ctx filePath f = .ok verdict := by
  rw [mem_field_iff h (fun events => by simp [foldl_append_result])]
  constructor
  · rintro ⟨path, node, hv, event, pushed, hvis, hx⟩
    rcases event_cases hvis with ⟨g, cs, verdict, rfl, hr, rfl⟩ | ⟨d, vnodes, verdict, rfl, hr, rfl⟩ | rfl
    · obtain rfl : filePath = path ++ g.name := by simpa using hx
      exact ⟨path, g, cs, hv, rfl, verdict, hr⟩
    · cases verdict <;> simp at hx
    · simp at hx
  · rintro ⟨path, f, cs, hv, rfl, verdict, hr⟩
    exact ⟨path, _, hv, _, [], by rw [visitTarget_file, hr]; rfl, by simp⟩

theorem mem_dirReplacements_iff (h : walkTargetTree ctx target = .ok results)
    {replacement : DirReplacement} :
    replacement ∈ results.dirReplacements ↔
      ∃ path d vnodes, TargetVisits ctx target path (.mk (.directory d) vnodes) ∧
        replacement.fullPath = path ++ d.name ∧
        targetDirVerdict ctx replacement.fullPath = .ok (.replace replacement.fromHash) := by
  rw [mem_field_iff h (fun events => by simp [foldl_append_result])]
  constructor
  · rintro ⟨path, node, hv, event, pushed, hvis, hx⟩
    rcases event_cases hvis with ⟨g, cs, verdict, rfl, hr, rfl⟩ | ⟨d, vnodes, verdict, rfl, hr, rfl⟩ | rfl
    · simp at hx
    · cases verdict with
      | clear => simp at hx
      | conflict => simp at hx
      | replace fromHash =>
          obtain rfl : replacement = ⟨path ++ d.name, fromHash⟩ := by simpa using hx
          exact ⟨path, d, vnodes, hv, rfl, hr⟩
    · simp at hx
  · rintro ⟨path, d, vnodes, hv, hp, hr⟩
    obtain ⟨fullPath, fromHash⟩ := replacement
    obtain rfl : fullPath = path ++ d.name := hp
    exact ⟨path, _, hv, { dirReplacements := [⟨path ++ d.name, fromHash⟩] },
      pushTargetChildren ctx (path ++ d.name) d.hash vnodes,
      by simp only [visitTarget, hr, Except.map], by simp⟩

theorem mem_cannotOverwriteEntries_iff (h : walkTargetTree ctx target = .ok results)
    {conflict : PathBuf} :
    conflict ∈ results.cannotOverwriteEntries ↔
      (∃ path f cs, TargetVisits ctx target path (.mk (.file f) cs) ∧ conflict = path ++ f.name ∧
        targetFileVerdict ctx conflict f = .ok .conflict) ∨
      (∃ path d vnodes, TargetVisits ctx target path (.mk (.directory d) vnodes) ∧
        conflict = path ++ d.name ∧ targetDirVerdict ctx conflict = .ok .conflict) := by
  rw [mem_field_iff h (fun events => by simp [foldl_append_result])]
  constructor
  · rintro ⟨path, node, hv, event, pushed, hvis, hx⟩
    rcases event_cases hvis with ⟨g, cs, verdict, rfl, hr, rfl⟩ | ⟨d, vnodes, verdict, rfl, hr, rfl⟩ | rfl
    · by_cases hver : verdict = .conflict
      · obtain rfl : conflict = path ++ g.name := by simpa [hver] using hx
        exact .inl ⟨path, g, cs, hv, rfl, hver ▸ hr⟩
      · simp [hver] at hx
    · cases verdict with
      | clear => simp at hx
      | replace fromHash => simp at hx
      | conflict =>
          obtain rfl : conflict = path ++ d.name := by simpa using hx
          exact .inr ⟨path, d, vnodes, hv, rfl, hr⟩
    · simp at hx
  · rintro (⟨path, f, cs, hv, rfl, hr⟩ | ⟨path, d, vnodes, hv, rfl, hr⟩)
    · exact ⟨path, _, hv, _, [], by rw [visitTarget_file, hr]; rfl, by simp⟩
    · exact ⟨path, _, hv, { cannotOverwriteEntries := [path ++ d.name] }, [],
        by simp only [visitTarget, hr, Except.map], by simp⟩

end Results

end Oxen
