import Oxen.Verification.Checkout.TargetWalk
import Oxen.Verification.Checkout.Verdicts

/-! Outcomes of the target walk over the tree of a commit. -/

namespace Oxen

open MerkleTreeNode

variable {db : NodeStore} {ctx : CheckoutContext} {target : CommitTree db}

theorem targetDirVerdict_error_iff {path : PathBuf} :
    (∃ e, targetDirVerdict ctx path = .error e) ↔ DirUnreadable ctx path := by
  by_cases h : ∃ content mtime, ctx.disk.lookup path = some (.file content mtime)
  · obtain ⟨content, mtime, h⟩ := h
    rcases targetDirVerdict_file h with ⟨hu, hv⟩ | ⟨hu, -, -, hv⟩ | ⟨hu, -, fromHash, hv⟩ <;>
      simp [hv, hu]
  · rw [targetDirVerdict_not_file fun content mtime hl => h ⟨content, mtime, hl⟩]
    simp only [reduceCtorEq, exists_false, false_iff]
    rintro ⟨content, mtime, -, hl, -⟩
    exact h ⟨content, mtime, hl⟩

theorem targetDirVerdict_conflict_iff {path : PathBuf} :
    targetDirVerdict ctx path = .ok .conflict ↔
      ctx.onConflict.isAbort = true ∧ DirDiverged ctx path ∧ ¬ DirUnreadable ctx path := by
  by_cases h : ∃ content mtime, ctx.disk.lookup path = some (.file content mtime)
  · obtain ⟨content, mtime, h⟩ := h
    rcases targetDirVerdict_file h with ⟨hu, hv⟩ | ⟨hu, hd, ha, hv⟩ | ⟨hu, hn, fromHash, hv⟩
    · simp [hv, hu]
    · simp [hv, hd, ha, hu]
    · simpa [hv, hu] using fun ha hd => hn ⟨hd, ha⟩
  · rw [targetDirVerdict_not_file fun content mtime hl => h ⟨content, mtime, hl⟩]
    simp only [Except.ok.injEq, reduceCtorEq, false_iff]
    rintro ⟨-, ⟨content, mtime, -, hl, -⟩, -⟩
    exact h ⟨content, mtime, hl⟩

/-- The walk fails only where it cannot read the disk. -/
theorem exists_unreadable_of_walk_error {e : OxenError}
    (h : walkTargetTree ctx target.tree = .error e) :
    (∃ path f cs, TargetReaches ctx.disk ctx.commonNodes target.tree path (.mk (.file f) cs) ∧
      FileUnreadable ctx (path ++ f.name) f) ∨
    ∃ path d vnodes,
      TargetReaches ctx.disk ctx.commonNodes target.tree path (.mk (.directory d) vnodes) ∧
        DirUnreadable ctx (path ++ d.name) := by
  have hw : StackWalk.walk (visitTarget ctx) target.tree.size [([], target.tree)] = .error e := by
    unfold walkTargetTree at h
    rcases hw : StackWalk.walk (visitTarget ctx) target.tree.size [([], target.tree)] with e' | events
    · simpa [hw, Except.map] using h
    · simp [hw, Except.map] at h
  obtain ⟨item, hitem, ⟨path, n, cs⟩, hv, he⟩ := StackWalk.exists_of_walk_error hw
  obtain rfl := List.mem_singleton.mp hitem
  have hr := TargetVisits.reaches hv
  cases n with
  | file f =>
      refine .inl ⟨path, f, cs, hr, targetFileVerdict_error_iff.mp ?_⟩
      rw [visitTarget_file] at he
      cases hf : targetFileVerdict ctx (path ++ f.name) f with
      | error e' => exact ⟨e', rfl⟩
      | ok verdict => simp [hf, Except.map] at he
  | vnode v => exact absurd hr Reaches.not_vnode
  | commit c =>
      obtain ⟨-, htree⟩ := target.eq_root_of_commit_mem hr.mem_subtrees
      obtain ⟨d, vnodes, hroot, -⟩ := target.exists_root
      obtain rfl : cs = [.mk (.directory d) vnodes] := (MerkleTreeNode.mk.inj htree).2.trans hroot
      simp [visitTarget, getRootDir, Except.map] at he
  | directory d =>
      refine .inr ⟨path, d, cs, hr, targetDirVerdict_error_iff.mp ?_⟩
      simp only [visitTarget] at he
      cases hd : targetDirVerdict ctx (path ++ d.name) with
      | error e' => exact ⟨e', rfl⟩
      | ok verdict => simp [hd, Except.map] at he

theorem exists_walk_of_ok {results : CheckoutResult}
    (h : walkTargetTree ctx target.tree = .ok results) :
    ∃ events, StackWalk.walk (visitTarget ctx) target.tree.size [([], target.tree)] =
      .ok events := by
  unfold walkTargetTree at h
  rcases hw : StackWalk.walk (visitTarget ctx) target.tree.size [([], target.tree)] with e | events
  · simp [hw, Except.map] at h
  · exact ⟨events, rfl⟩

theorem fileVerdict_of_walk {results : CheckoutResult}
    (h : walkTargetTree ctx target.tree = .ok results) {path : PathBuf} {f : FileNode}
    {cs : List MerkleTreeNode} (hv : TargetVisits ctx target.tree path (.mk (.file f) cs)) :
    ∃ verdict, targetFileVerdict ctx (path ++ f.name) f = .ok verdict := by
  have hw := exists_walk_of_ok h
  rw [StackWalk.walk_isOk_iff (decreasing_visitTarget ctx) (by simp)] at hw
  cases he : targetFileVerdict ctx (path ++ f.name) f with
  | ok verdict => exact ⟨verdict, rfl⟩
  | error e =>
      refine absurd ⟨_, List.mem_singleton.mpr rfl, _, hv, e, ?_⟩ hw
      rw [visitTarget_file, he]
      rfl

theorem dirVerdict_of_walk {results : CheckoutResult}
    (h : walkTargetTree ctx target.tree = .ok results) {path : PathBuf} {d : DirNode}
    {vnodes : List MerkleTreeNode}
    (hv : TargetVisits ctx target.tree path (.mk (.directory d) vnodes)) :
    ∃ verdict, targetDirVerdict ctx (path ++ d.name) = .ok verdict := by
  have hw := exists_walk_of_ok h
  rw [StackWalk.walk_isOk_iff (decreasing_visitTarget ctx) (by simp)] at hw
  cases he : targetDirVerdict ctx (path ++ d.name) with
  | ok verdict => exact ⟨verdict, rfl⟩
  | error e =>
      refine absurd ⟨_, List.mem_singleton.mpr rfl, _, hv, e, ?_⟩ hw
      simp only [visitTarget, he]
      rfl

/-- Without conflicts the walk visits everything within reach. -/
theorem visits_of_reaches {results : CheckoutResult}
    (h : walkTargetTree ctx target.tree = .ok results)
    (hc : results.cannotOverwriteEntries = []) {path : PathBuf} {node : MerkleTreeNode}
    (hr : TargetReaches ctx.disk ctx.commonNodes target.tree path node) : TargetVisits ctx target.tree path node := by
  rcases hr.visits_or_stops with hv | ⟨q, d, vnodes, hv, hs⟩
  · exact hv
  · exfalso
    have hconflict : targetDirVerdict ctx (q ++ d.name) = .ok .conflict := by
      obtain ⟨verdict, hd⟩ := dirVerdict_of_walk h hv
      by_contra hne
      exact hs ⟨verdict, hd, fun heq => hne (by rw [hd, heq])⟩
    have := (mem_cannotOverwriteEntries_iff h).mpr (.inr ⟨q, d, vnodes, hv, rfl, hconflict⟩)
    simp [hc] at this

/-- A conflict of the walk is an edit of the user. -/
theorem diverged_of_conflict {results : CheckoutResult}
    (h : walkTargetTree ctx target.tree = .ok results)
    (hc : results.cannotOverwriteEntries ≠ []) :
    (∃ path f cs, TargetReaches ctx.disk ctx.commonNodes target.tree path (.mk (.file f) cs) ∧
      FileDiverged ctx (path ++ f.name) f) ∨
    ∃ path d vnodes, TargetReaches ctx.disk ctx.commonNodes target.tree path (.mk (.directory d) vnodes) ∧
      DirDiverged ctx (path ++ d.name) := by
  obtain ⟨conflict, hmem⟩ := List.exists_mem_of_ne_nil _ hc
  rcases (mem_cannotOverwriteEntries_iff h).mp hmem with
    ⟨path, f, cs, hv, rfl, hf⟩ | ⟨path, d, vnodes, hv, rfl, hd⟩
  · exact .inl ⟨path, f, cs, TargetVisits.reaches hv, (targetFileVerdict_conflict_iff.mp hf).2.1⟩
  · exact .inr ⟨path, d, vnodes, TargetVisits.reaches hv, (targetDirVerdict_conflict_iff.mp hd).2.1⟩

end Oxen
