import Oxen.Model.GlobSearch
import Oxen.Verification.Paths.RelativePath
import Oxen.Verification.Status.HeadTree

/-! What a glob pattern finds in the tree of the head commit. -/

namespace Oxen

namespace GlobSearch

open MerkleTreeNode CommitMerkleTree Remove Status

variable (env : Env) in
/-- Each component of the pattern matches one of the path. A component without wildcards
stands for itself, except for the last, which the library matches. -/
inductive TreeMatch : List String → PathBuf → Prop
  | last {dir name : String} (h : env.globMatch dir name = true) : TreeMatch [dir] [name]
  | wildcard {dir name : String} {pattern : List String} {rest : PathBuf}
      (hglob : isGlobPath dir = true) (h : env.globMatch dir name = true)
      (hrest : TreeMatch pattern rest) :
      TreeMatch (dir :: pattern) (name :: rest)
  | literal {dir : String} {pattern : List String} {rest : PathBuf}
      (hglob : isGlobPath dir = false) (hrest : TreeMatch pattern rest) :
      TreeMatch (dir :: pattern) (dir :: rest)

variable {env : Env} {dirHashes : DirHashes} {path parent : PathBuf} {pattern : List String}
  {n : EMerkleTreeNode}

theorem TreeMatch.ne_nil (h : TreeMatch env pattern path) : pattern ≠ [] ∧ path ≠ [] := by
  cases h with
  | last => simp
  | wildcard => simp
  | literal => simp

/-- A set of paths after more were inserted. -/
theorem mem_foldl_insert {α : Type} [BEq α] [LawfulBEq α] {paths more : List α} {p : α} :
    p ∈ more.foldl (fun paths path => paths.insert path) paths ↔ p ∈ paths ∨ p ∈ more := by
  induction more generalizing paths with
  | nil => simp
  | cons x more ih =>
      rw [List.foldl_cons, ih, List.mem_insert_iff, List.mem_cons]
      tauto

/-! ## One directory -/

/-- A child that is a directory, or any child where the pattern ends. -/
def Expands (isFinal : Bool) (n : EMerkleTreeNode) : Prop :=
  isFinal = true ∨ ∃ d, n = .directory d

theorem mem_ite_insert {paths : List PathBuf} {b : Bool} {p q : PathBuf} :
    p ∈ (if b then paths.insert q else paths) ↔ p ∈ paths ∨ p = q ∧ b = true := by
  cases b with
  | true => simp [List.mem_insert_iff, or_comm]
  | false => simp

/-- The child of that name is inserted if it is matched. -/
theorem expandChild_spec (globPattern : String) (isFinal : Bool) (paths : List PathBuf)
    {child : MerkleTreeNode} (h : child.isEntry = true) :
    ∃ paths', expandChild env globPattern parent isFinal paths child = .ok paths' ∧
      ∀ p, p ∈ paths' ↔ p ∈ paths ∨ ∃ name, child.node.ownPath [] = [name] ∧
        p = parent ++ [name] ∧ Expands isFinal child.node ∧
          env.globMatch globPattern name = true := by
  rcases exists_name_of_isEntry h with ⟨name, hname⟩
  rcases child with ⟨n, cs⟩
  rw [node_mk] at hname ⊢
  rw [hname]
  cases n with
  | file f =>
      have hf : f.name = [name] := hname
      refine ⟨_, rfl, fun p => ?_⟩
      rw [mem_ite_insert, hf, PathBuf.display_singleton, Bool.and_eq_true]
      simp [Expands]
  | directory d =>
      have hd : d.name = [name] := hname
      refine ⟨_, rfl, fun p => ?_⟩
      rw [mem_ite_insert, hd, PathBuf.display_singleton]
      simp [Expands]
  | vnode v => cases h
  | commit c => cases h

theorem expandChildren_spec (globPattern : String) (isFinal : Bool) (paths : List PathBuf)
    {children : List MerkleTreeNode} (h : ∀ c ∈ children, c.isEntry = true) :
    ∃ paths', children.foldlM (expandChild env globPattern parent isFinal) paths = .ok paths' ∧
      ∀ p, p ∈ paths' ↔ p ∈ paths ∨ ∃ c ∈ children, ∃ name, c.node.ownPath [] = [name] ∧
        p = parent ++ [name] ∧ Expands isFinal c.node ∧ env.globMatch globPattern name = true := by
  induction children generalizing paths with
  | nil => exact ⟨paths, rfl, by simp⟩
  | cons c children ih =>
      rcases @expandChild_spec env parent globPattern isFinal paths c (h c List.mem_cons_self) with
        ⟨paths', hstep, hmem⟩
      rcases ih paths' fun c' hc' => h c' (List.mem_cons_of_mem c hc') with
        ⟨paths'', hrest, hmem'⟩
      refine ⟨paths'', by rw [List.foldlM_cons, hstep]; exact hrest, fun p => ?_⟩
      simp only [hmem', hmem, List.mem_cons, exists_eq_or_imp, or_assoc]

/-- Searching below one entry after the other. -/
theorem rSearchAll_spec
    (h : ∀ paths parent, ∃ paths', rSearchMerkleTree env dirHashes pattern paths parent =
      .ok paths' ∧ ∀ p, p ∈ paths' ↔ p ∈ paths ∨ ∃ rest n, p = parent ++ rest ∧
        TreeMatch env pattern rest ∧ Entry env.toEnv dirHashes p n)
    (paths entries : List PathBuf) :
    ∃ paths', entries.foldlM
        (fun paths entry => rSearchMerkleTree env dirHashes pattern paths entry) paths =
      .ok paths' ∧ ∀ p, p ∈ paths' ↔ p ∈ paths ∨ ∃ entry ∈ entries, ∃ rest n,
        p = entry ++ rest ∧ TreeMatch env pattern rest ∧ Entry env.toEnv dirHashes p n := by
  induction entries generalizing paths with
  | nil => exact ⟨paths, rfl, by simp⟩
  | cons entry entries ih =>
      rcases h paths entry with ⟨paths', hstep, hmem⟩
      rcases ih paths' with ⟨paths'', hrest, hmem'⟩
      refine ⟨paths'', by rw [List.foldlM_cons, hstep]; exact hrest, fun p => ?_⟩
      simp only [hmem', hmem, List.mem_cons, exists_eq_or_imp, or_assoc]

section Search

variable (head : HeadTree env.toEnv dirHashes) (hfuel : 2 ≤ env.fuel)

include head hfuel

/-- A pattern finds the entries of one directory whose names it matches. -/
theorem expandGlobPattern_spec (globPattern : String) (parent : PathBuf) (isFinal : Bool) :
    ∃ paths, expandGlobPattern env dirHashes globPattern parent isFinal = .ok paths ∧
      ∀ p, p ∈ paths ↔ ∃ name n, p = parent ++ [name] ∧ Entry env.toEnv dirHashes p n ∧
        Expands isFinal n ∧ env.globMatch globPattern name = true := by
  cases hlookup : dirHashes.lookup parent with
  | none =>
      have hnone : getDirWithChildren env dirHashes parent = none := by
        rw [getDirWithChildren, hlookup, Option.bind_none]
      refine ⟨[], by rw [expandGlobPattern, hnone], fun p => iff_of_false (by simp) ?_⟩
      rintro ⟨name, n, rfl, hentry, -⟩
      have hmem := hentry.dropLast_mem
      rw [List.dropLast_concat] at hmem
      exact AList.lookup_eq_none.mp hlookup hmem
  | some hash =>
      rcases exists_children head.good hfuel hlookup with
        ⟨loaded, children, hread, hchildren, hlisted, hentry⟩
      have hdir : getDirWithChildren env dirHashes parent = some loaded := by
        rw [getDirWithChildren, hlookup, Option.bind_some, hread]
      rcases @expandChildren_spec env parent globPattern isFinal [] children hentry with
        ⟨paths, hpaths, hmem⟩
      refine ⟨paths, ?_, fun p => ?_⟩
      · rw [expandGlobPattern, hdir]
        dsimp only
        rw [hchildren]
        exact hpaths
      · rw [hmem]
        constructor
        · rintro (hnil | ⟨c, hc, name, hname, rfl, hexpands, hmatch⟩)
          · cases hnil
          · have hin : c.node ∈ listed env.db hash := by
              rw [← hlisted]
              exact List.mem_map_of_mem hc
            exact ⟨name, c.node, rfl, (entry_concat_iff hlookup).mpr ⟨hin, hname⟩, hexpands,
              hmatch⟩
        · rintro ⟨name, n, rfl, hentry, hexpands, hmatch⟩
          rw [entry_concat_iff hlookup, ← hlisted] at hentry
          rcases List.mem_map.mp hentry.1 with ⟨c, hc, rfl⟩
          exact .inr ⟨c, hc, name, hentry.2, rfl, hexpands, hmatch⟩

/-! ## The whole pattern -/

variable (horder : ∀ l, (env.hashOrder l).Perm l)

include horder

/-- The search adds the entries of the head that the pattern matches. -/
theorem rSearchMerkleTree_spec (hpattern : pattern ≠ []) (paths : List PathBuf)
    (parent : PathBuf) :
    ∃ paths', rSearchMerkleTree env dirHashes pattern paths parent = .ok paths' ∧
      ∀ p, p ∈ paths' ↔ p ∈ paths ∨ ∃ rest n, p = parent ++ rest ∧ TreeMatch env pattern rest ∧
        Entry env.toEnv dirHashes p n := by
  induction pattern generalizing paths parent with
  | nil => exact absurd rfl hpattern
  | cons dir pattern ih =>
      cases pattern with
      | nil =>
          rcases expandGlobPattern_spec head hfuel dir parent true with ⟨found, hfound, hmem⟩
          refine ⟨_, by rw [rSearchMerkleTree, hfound]; rfl, fun p => ?_⟩
          rw [mem_foldl_insert, (horder found).mem_iff, hmem]
          refine or_congr_right ⟨?_, ?_⟩
          · rintro ⟨name, n, rfl, hentry, -, hmatch⟩
            exact ⟨[name], n, rfl, .last hmatch, hentry⟩
          · rintro ⟨rest, n, rfl, hmatch, hentry⟩
            cases hmatch with
            | last h => exact ⟨_, n, rfl, hentry, .inl rfl, h⟩
            | wildcard _ _ hrest => exact absurd rfl hrest.ne_nil.1
            | literal _ hrest => exact absurd rfl hrest.ne_nil.1
      | cons next pattern =>
          have ih := @ih (List.cons_ne_nil next pattern)
          cases hglob : isGlobPath dir with
          | false =>
              rcases ih paths (parent ++ [dir]) with ⟨paths', hpaths, hmem⟩
              refine ⟨paths', ?_, fun p => ?_⟩
              · rw [rSearchMerkleTree, hglob]
                exact hpaths
              · rw [hmem]
                refine or_congr_right ⟨?_, ?_⟩
                · rintro ⟨rest, n, rfl, hmatch, hentry⟩
                  exact ⟨dir :: rest, n, by simp, .literal hglob hmatch, hentry⟩
                · rintro ⟨rest, n, rfl, hmatch, hentry⟩
                  cases hmatch with
                  | wildcard htrue _ _ => simp [hglob] at htrue
                  | literal _ hrest => exact ⟨_, n, by simp, hrest, hentry⟩
          | true =>
              rcases expandGlobPattern_spec head hfuel dir parent false with
                ⟨found, hfound, hfoundMem⟩
              rcases rSearchAll_spec ih paths (env.hashOrder found) with
                ⟨paths', hpaths, hmem⟩
              refine ⟨paths', ?_, fun p => ?_⟩
              · rw [rSearchMerkleTree, hglob, if_pos rfl, hfound]
                exact hpaths
              · rw [hmem]
                refine or_congr_right ⟨?_, ?_⟩
                · rintro ⟨entry, hin, rest, n, rfl, hmatch, hentry⟩
                  rcases (hfoundMem _).mp ((horder found).mem_iff.mp hin) with
                    ⟨name, m, rfl, -, -, hname⟩
                  exact ⟨name :: rest, n, by simp, .wildcard hglob hname hmatch, hentry⟩
                · rintro ⟨rest, n, rfl, hmatch, hentry⟩
                  cases hmatch with
                  | literal hfalse _ => simp [hglob] at hfalse
                  | @wildcard _ name _ rest _ hname hrest =>
                      rw [← List.singleton_append, ← List.append_assoc] at hentry ⊢
                      -- What lies above an entry is a directory of the head.
                      have hdir := (hentry.of_isPrefix head (List.prefix_append _ rest)
                        (by simp)).2 (by simpa using hrest.ne_nil.2)
                      rcases (head.mem_iff _ (by simp)).mp hdir with ⟨d, hd⟩
                      have hin := (hfoundMem (parent ++ [name])).mpr
                        ⟨name, _, rfl, hd, .inr ⟨d, rfl⟩, hname⟩
                      exact ⟨_, (horder found).mem_iff.mpr hin, rest, n, rfl, hrest, hentry⟩

end Search

end GlobSearch

end Oxen
