import Oxen.Lib.Rearrangements
import Oxen.Lib.Words
import Oxen.Model.DirOrder
import Oxen.Verification.Tree.FileMap

/-! The hash of a directory digests the changed directories at or below it one
after another, in the order in which the writer comes to them. -/

namespace Oxen

open Rearrangements Words

section

variable {host : Host} {entries : VNodeEntries} {path : PathBuf}
  {order dirs children : List ChangedDir}

/-! ## Orders of the changed directories -/

theorem isOrder_of_perm (h : dirs.Perm (KeyedMap.toList entries)) : IsOrder entries dirs :=
  ⟨dirs, h, List.forall₂_same.mpr fun _ _ => ⟨rfl, rfl, .refl _⟩⟩

/-- The hasher is not fed the removed entries. -/
theorem flatMap_bytes_eq_of_forall₂
    (h : List.Forall₂ (fun (x y : ChangedDir) => x.1 = y.1 ∧ x.2.1 = y.2.1 ∧ x.2.2.Perm y.2.2)
      order dirs) (path : PathBuf) :
    (getChildrenIn order path).flatMap ChangedDir.bytes =
      (getChildrenIn dirs path).flatMap ChangedDir.bytes := by
  induction h with
  | nil => rfl
  | @cons x y order dirs hxy _ ih =>
      obtain ⟨hpath, hvnodes, -⟩ := hxy
      have hbytes : x.bytes = y.bytes := by rw [ChangedDir.bytes, ChangedDir.bytes, hvnodes]
      rw [getChildrenIn, getChildrenIn] at ih ⊢
      rw [List.filter_cons, List.filter_cons, hpath]
      split
      · rw [List.flatMap_cons, List.flatMap_cons, hbytes, ih]
      · exact ih

/-- What is digested is a rearrangement of the changed directories at or below
the path, and every rearrangement can be. -/
theorem exists_isOrder_iff {bytes : List UInt8} :
    (∃ order, IsOrder entries order ∧ digestBytes path (getChildrenIn order path) = bytes) ↔
      ∃ children, children.Perm (getChildren entries path) ∧ digestBytes path children = bytes := by
  constructor
  · rintro ⟨order, ⟨dirs, hperm, hsame⟩, rfl⟩
    refine ⟨getChildrenIn dirs path, hperm.filter _, ?_⟩
    rw [digestBytes, digestBytes, flatMap_bytes_eq_of_forall₂ hsame]
  · rintro ⟨children, hperm, rfl⟩
    obtain ⟨dirs, hdirs, rfl⟩ := exists_perm_filter hperm
    exact ⟨dirs, isOrder_of_perm hdirs, rfl⟩

/-! ## The hash -/

/-- The hash of the directory is the same in every order. -/
def HashOrderFree (host : Host) (entries : VNodeEntries) (path : PathBuf) : Prop :=
  ∀ commitId oldDir oldFile order order', IsOrder entries order → IsOrder entries order' →
    (computeDirNodeIn host commitId order oldDir oldFile path).hash =
      (computeDirNodeIn host commitId order' oldDir oldFile path).hash

theorem hashOrderFree_iff_orderBlind :
    HashOrderFree host entries path ↔
      OrderBlind (fun children => host.xxh3 (digestBytes path children))
        (getChildren entries path) := by
  constructor
  · intro h l₁ l₂ h₁ h₂
    obtain ⟨order, ho, heq⟩ := exists_isOrder_iff.mpr ⟨l₁, h₁, rfl⟩
    obtain ⟨order', ho', heq'⟩ := exists_isOrder_iff.mpr ⟨l₂, h₂, rfl⟩
    have hsame := h 0 (fun _ => none) (fun _ => none) order order' ho ho'
    simp only [computeDirNodeIn] at hsame
    rwa [heq, heq'] at hsame
  · intro h commitId oldDir oldFile order order' ho ho'
    obtain ⟨l₁, h₁, heq⟩ := exists_isOrder_iff.mp ⟨order, ho, rfl⟩
    obtain ⟨l₂, h₂, heq'⟩ := exists_isOrder_iff.mp ⟨order', ho', rfl⟩
    change host.xxh3 _ = host.xxh3 _
    rw [← heq, ← heq']
    exact h l₁ l₂ h₁ h₂

/-- The changed directories at or below the path add repetitions of one byte string. -/
def OneWord (entries : VNodeEntries) (path : PathBuf) : Prop :=
  ∃ word, ∀ dir ∈ getChildren entries path, ∃ n, ChangedDir.bytes dir = power word n

/-- Different contents that the hasher is fed for the directory have different digests. -/
def OrdersDoNotCollide (host : Host) (entries : VNodeEntries) (path : PathBuf) : Prop :=
  ∀ children children' : List ChangedDir, children.Perm (getChildren entries path) →
    children'.Perm (getChildren entries path) →
    host.xxh3 (digestBytes path children) = host.xxh3 (digestBytes path children') →
      digestBytes path children = digestBytes path children'

theorem digestBytes_swap_iff {before after : List ChangedDir} {a b : ChangedDir} :
    digestBytes path (before ++ a :: b :: after) = digestBytes path (before ++ b :: a :: after) ↔
      Commutes a.bytes b.bytes := by
  have hsplit : ∀ x y : ChangedDir, digestBytes path (before ++ x :: y :: after) =
      (utf8 "dir" ++ path.toBytes ++ before.flatMap ChangedDir.bytes) ++
        ((x.bytes ++ y.bytes) ++ after.flatMap ChangedDir.bytes) := by
    intro x y
    simp only [digestBytes, List.flatMap_append, List.flatMap_cons, List.append_assoc]
  rw [hsplit, hsplit, List.append_cancel_left_eq, List.append_cancel_right_eq, Commutes]

theorem oneWord_iff_commutes : OneWord entries path ↔
    ∀ a ∈ getChildren entries path, ∀ b ∈ getChildren entries path,
      Commutes (ChangedDir.bytes a) (ChangedDir.bytes b) := by
  have hwords := @commutes_iff_power UInt8 ((getChildren entries path).map ChangedDir.bytes)
  rw [OneWord]
  simpa only [List.forall_mem_map] using hwords.symm

theorem hashOrderFree_of_oneWord (h : OneWord entries path) :
    HashOrderFree host entries path := by
  rw [oneWord_iff_commutes] at h
  rw [hashOrderFree_iff_orderBlind, orderBlind_iff_swapBlind]
  intro before a b after hperm
  have ha : a ∈ getChildren entries path := hperm.mem_iff.mp (by simp)
  have hb : b ∈ getChildren entries path := hperm.mem_iff.mp (by simp)
  exact congrArg host.xxh3 (digestBytes_swap_iff.mpr (h a ha b hb))

theorem oneWord_of_hashOrderFree (hfree : OrdersDoNotCollide host entries path)
    (h : HashOrderFree host entries path) : OneWord entries path := by
  rw [hashOrderFree_iff_orderBlind] at h
  rw [oneWord_iff_commutes]
  intro a ha b hb
  by_cases hab : a = b
  · rw [hab]
    exact rfl
  -- One order has the two directories in front, another one has them exchanged.
  · rcases List.append_of_mem ha with ⟨before, after, hsplit⟩
    have hperm : (a :: (before ++ after)).Perm (getChildren entries path) := by
      rw [hsplit]
      exact List.perm_middle.symm
    have hmem : b ∈ before ++ after := by
      have hb := hperm.mem_iff.mpr hb
      rcases List.mem_cons.mp hb with heq | hb
      · exact absurd heq.symm hab
      · exact hb
    rcases List.append_of_mem hmem with ⟨front, rest, hrest⟩
    have hfirst : (a :: b :: (front ++ rest)).Perm (getChildren entries path) := by
      refine .trans (.cons a ?_) hperm
      rw [hrest]
      exact List.perm_middle.symm
    have hsecond : (b :: a :: (front ++ rest)).Perm (getChildren entries path) :=
      (List.Perm.swap a b _).trans hfirst
    exact (@digestBytes_swap_iff path [] (front ++ rest) a b).mp
      (hfree _ _ hfirst hsecond (h _ _ hfirst hsecond))

/-- The hash does not depend on the order where the changed directories at or below the path
add repetitions of one byte string, and without collisions nowhere else. -/
theorem hashOrderFree_iff (host : Host) (entries : VNodeEntries) (path : PathBuf) :
    (OneWord entries path → HashOrderFree host entries path) ∧
      (OrdersDoNotCollide host entries path → HashOrderFree host entries path →
        OneWord entries path) :=
  ⟨hashOrderFree_of_oneWord, oneWord_of_hashOrderFree⟩

end

/-! ## A first commit -/

namespace DirHashExample

def env : CommitEnv where
  toLocalRepository := Example.repo
  numVNodes n := n
  numVNodes_zero := rfl
  numVNodes_pos _ h := h
  uuid _ _ := [7]
  timestamp := 5000000000

/-- A file in a directory, both new. -/
def staged : DirEntries :=
  AList.insert [] [⟨.added, .directory { name := ["a"], hash := 0 }⟩]
    (AList.insert ["a"] [⟨.added, .file { Example.fileNode "x" [1] 5 with name := ["a", "x"] }⟩] ∅)

def entries : VNodeEntries :=
  splitIntoVNodes env (fun _ => none) ∅ staged

def other : List ChangedDir :=
  (KeyedMap.toList entries).reverse

/-- A file is added, and the last file of another directory is removed. -/
def lastRemoved : VNodeEntries :=
  AList.insert [] ([{ id := 7, entries := [⟨.added, .file (Example.fileNode "y" [2] 5)⟩] }], [])
    (AList.insert ["a"] ([], [⟨.removed, .file (Example.fileNode "x" [1] 5)⟩]) ∅)

theorem getChildren_lastRemoved : (getChildren lastRemoved []).map ChangedDir.bytes =
    [vnodeBytes { id := 7, entries := [⟨.added, .file (Example.fileNode "y" [2] 5)⟩] }, []] := by
  decide

theorem oneWord_lastRemoved : OneWord lastRemoved [] := by
  refine ⟨vnodeBytes { id := 7, entries := [⟨.added, .file (Example.fileNode "y" [2] 5)⟩] },
    fun dir hdir => ?_⟩
  have hmem := List.mem_map_of_mem (f := ChangedDir.bytes) hdir
  rw [getChildren_lastRemoved, List.mem_cons, List.mem_singleton] at hmem
  rcases hmem with h | h
  · exact ⟨1, by rw [h, power_one]⟩
  · exact ⟨0, h⟩

end DirHashExample

open DirHashExample in
theorem hashOrderFree_lastRemoved : HashOrderFree Example.host lastRemoved [] :=
  (hashOrderFree_iff Example.host lastRemoved []).1 oneWord_lastRemoved

open DirHashExample in
/-- The hash of the root depends on whether the new directory comes first. -/
theorem not_hashOrderFree :
    ¬ HashOrderFree Example.host entries [] := by
  intro h
  have hsame := h 0 (fun _ => none) (fun _ => none) (KeyedMap.toList entries) other
    (isOrder_of_perm (.refl _)) (isOrder_of_perm (List.reverse_perm _))
  exact absurd hsame (by decide +kernel)

end Oxen
