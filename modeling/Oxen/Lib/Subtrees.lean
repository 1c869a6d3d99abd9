import Mathlib.Data.List.Infix

/-! Entries of a tree of directories, named by their paths. When subtrees are
taken out, the directories above that keep no entry go with them. -/

namespace Subtrees

variable {α : Type*} {staged isDir : List α → Prop} {paths : List (List α)} {path : List α}

/-- What is left when the subtrees at some paths are taken out. A directory above
one of them stays for an entry below it that is left. -/
inductive Remains (staged isDir : List α → Prop) (paths : List (List α)) : List α → Prop
  | kept {path : List α} (hstaged : staged path) (hout : ∀ p ∈ paths, ¬ p <+: path)
      (hkind : ¬ (isDir path ∧ ∃ p ∈ paths, path <+: p)) : Remains staged isDir paths path
  | above {path below : List α} (hstaged : staged path) (hout : ∀ p ∈ paths, ¬ p <+: path)
      (hbelow : path <+: below) (hne : below ≠ path) (hleft : Remains staged isDir paths below) :
      Remains staged isDir paths path

/-- An entry that stays for its own sake. -/
structure Settled (staged isDir : List α → Prop) (paths : List (List α)) (path : List α) : Prop where
  staged : staged path
  out : ∀ p ∈ paths, ¬ p <+: path
  kind : ¬ (isDir path ∧ ∃ p ∈ paths, path <+: p)

theorem remains_iff :
    Remains staged isDir paths path ↔
      staged path ∧ (∀ p ∈ paths, ¬ p <+: path) ∧
        ∃ below, Settled staged isDir paths below ∧ path <+: below := by
  constructor
  · intro h
    induction h with
    | kept hstaged hout hkind =>
        exact ⟨hstaged, hout, _, ⟨hstaged, hout, hkind⟩, List.prefix_refl _⟩
    | above hstaged hout hbelow _ _ ih =>
        rcases ih with ⟨-, -, last, hlast, hstart⟩
        exact ⟨hstaged, hout, last, hlast, hbelow.trans hstart⟩
  · rintro ⟨hstaged, hout, below, hbelow, hstart⟩
    have hkept : Remains staged isDir paths below := .kept hbelow.staged hbelow.out hbelow.kind
    by_cases heq : below = path
    · exact heq ▸ hkept
    · exact .above hstaged hout hstart heq hkept

theorem Remains.isStaged (h : Remains staged isDir paths path) : staged path :=
  (remains_iff.mp h).1

theorem remains_nil : Remains staged isDir [] path ↔ staged path := by
  constructor
  · exact Remains.isStaged
  · intro h
    exact .kept h (by simp) (by simp)

/-- Subtrees are taken out one after the other. -/
theorem remains_append_singleton (p : List α) :
    Remains staged isDir (paths ++ [p]) path ↔
      Remains (Remains staged isDir paths) isDir [p] path := by
  have hout : ∀ k : List α, (∀ q ∈ paths ++ [p], ¬ q <+: k) ↔
      (∀ q ∈ paths, ¬ q <+: k) ∧ ¬ p <+: k := by
    intro k
    simp only [List.forall_mem_append, List.forall_mem_singleton]
  rw [remains_iff, remains_iff, hout]
  simp only [List.forall_mem_singleton]
  constructor
  · rintro ⟨hstaged, ⟨houts, hp⟩, below, hbelow, hstart⟩
    have hbelow_out := (hout below).mp hbelow.out
    have hsettled : Settled staged isDir paths below :=
      ⟨hbelow.staged, hbelow_out.1, fun h => hbelow.kind ⟨h.1, by
        rcases h.2 with ⟨q, hq, hle⟩
        exact ⟨q, List.mem_append_left [p] hq, hle⟩⟩⟩
    have hleft : Remains staged isDir paths below := .kept hsettled.staged hsettled.out hsettled.kind
    refine ⟨remains_iff.mpr ⟨hstaged, houts, below, hsettled, hstart⟩, hp, below, ?_, hstart⟩
    refine ⟨hleft, by simpa using hbelow_out.2, fun h => hbelow.kind ⟨h.1, p, by simp, ?_⟩⟩
    simpa using h.2
  · rintro ⟨hleft, hp, below, ⟨hbelow, hbelow_out, hbelow_kind⟩, hstart⟩
    rcases remains_iff.mp hleft with ⟨hstaged, houts, -⟩
    refine ⟨hstaged, ⟨houts, hp⟩, ?_⟩
    have hbelow_out : ¬ p <+: below := by simpa using hbelow_out
    have hbelow_kind : ¬ (isDir below ∧ below <+: p) := by simpa using hbelow_kind
    rcases remains_iff.mp hbelow with ⟨hbelow_staged, hbelow_outs, last, hlast, hlast_start⟩
    by_cases habove : isDir below ∧ ∃ q ∈ paths, below <+: q
    · -- Whatever keeps this directory is in no way of `p`, which is not below it.
      have hnot : ¬ below <+: p := fun h => hbelow_kind ⟨habove.1, h⟩
      refine ⟨last, ⟨hlast.staged, (hout last).mpr ⟨hlast.out, fun h => ?_⟩, ?_⟩,
        hstart.trans hlast_start⟩
      · rcases List.prefix_or_prefix_of_prefix h hlast_start with h | h
        · exact hbelow_out h
        · exact hnot h
      · rintro ⟨hdir, q, hq, hle⟩
        rcases List.mem_append.mp hq with hq | hq
        · exact hlast.kind ⟨hdir, q, hq, hle⟩
        · rw [List.mem_singleton.mp hq] at hle
          exact hnot (hlast_start.trans hle)
    · refine ⟨below, ⟨hbelow_staged, (hout below).mpr ⟨hbelow_outs, hbelow_out⟩, ?_⟩, hstart⟩
      rintro ⟨hdir, q, hq, hle⟩
      rcases List.mem_append.mp hq with hq | hq
      · exact habove ⟨hdir, q, hq, hle⟩
      · rw [List.mem_singleton.mp hq] at hle
        exact hbelow_kind ⟨hdir, hle⟩

/-! ## Telling what lies below a path by texts -/

/-- A relation that holds where the text of an entry starts with the text of a
path, in particular for the entries below the path. -/
structure Naming (starts : List α → List α → Prop) (path : List α) : Prop where
  refl : ∀ k, starts k k
  shorter : ∀ {k p q}, starts k p → q <+: p → starts k q
  antisymm : ∀ {k}, starts k path → k <+: path → k = path

theorem Naming.of_prefix {starts : List α → List α → Prop} (hn : Naming starts path)
    {k p : List α} (h : p <+: k) : starts k p :=
  hn.shorter (hn.refl k) h

/-- An entry that is left when everything that starts like the path is taken out,
and then each path above it that nothing else starts like. -/
def ScanKeeps (staged : List α → Prop) (starts : List α → List α → Prop) (path k : List α) : Prop :=
  staged k ∧ ¬ starts k path ∧
    ¬ (k <+: path ∧ k ≠ path ∧ ∀ k', staged k' → starts k' k → k' ≠ k → starts k' path)

/-- What lies below a directory above the path is the path itself, or above it too. -/
def NothingElse (staged isDir : List α → Prop) (path dir : List α) : Prop :=
  ∀ k, staged k → dir <+: k → path <+: k ∨ isDir k ∧ k <+: path

/-- Texts tell the path and the directories above it from all other entries. -/
structure Separate (staged isDir : List α → Prop) (starts : List α → List α → Prop)
    (path : List α) : Prop where
  apart : ∀ k, staged k → starts k path → path <+: k
  emptied : ∀ dir, staged dir → isDir dir → dir <+: path → dir ≠ path →
    NothingElse staged isDir path dir →
    ∀ k, staged k → starts k dir → k ≠ dir → path <+: k
  files : ∀ file, staged file → ¬ isDir file → file <+: path → file ≠ path →
    ∃ k, staged k ∧ starts k file ∧ k ≠ file ∧ ¬ path <+: k

/-- A directory above the path goes when it contains nothing else. -/
theorem remains_singleton {k : List α} :
    Remains staged isDir [path] k ↔
      staged k ∧ ¬ path <+: k ∧ ¬ (isDir k ∧ k <+: path ∧ NothingElse staged isDir path k) := by
  rw [remains_iff]
  simp only [List.forall_mem_singleton]
  refine and_congr_right fun hstaged => and_congr_right fun hout => ?_
  constructor
  · rintro ⟨below, hbelow, hstart⟩ ⟨-, -, hnothing⟩
    rcases hnothing below hbelow.staged hstart with h | h
    · exact hbelow.out path (by simp) h
    · exact hbelow.kind ⟨h.1, path, by simp, h.2⟩
  · intro h
    by_cases hkind : isDir k ∧ k <+: path
    · have hother : ¬ NothingElse staged isDir path k := fun hn => h ⟨hkind.1, hkind.2, hn⟩
      rw [NothingElse] at hother
      push Not at hother
      rcases hother with ⟨below, hbelow, hstart, hbelow_out, hbelow_kind⟩
      refine ⟨below, ⟨hbelow, by simpa using hbelow_out, ?_⟩, hstart⟩
      rintro ⟨hdir, q, hq, hle⟩
      rw [List.mem_singleton.mp hq] at hle
      exact hbelow_kind hdir hle
    · refine ⟨k, ⟨hstaged, by simpa using hout, ?_⟩, List.prefix_refl k⟩
      rintro ⟨hdir, q, hq, hle⟩
      rw [List.mem_singleton.mp hq] at hle
      exact hkind ⟨hdir, hle⟩

theorem scanKeeps_iff_remains {starts : List α → List α → Prop} (hn : Naming starts path) :
    (∀ k, ScanKeeps staged starts path k ↔ Remains staged isDir [path] k) ↔
      Separate staged isDir starts path := by
  simp only [remains_singleton]
  constructor
  · intro h
    have hapart : ∀ k, staged k → starts k path → path <+: k := by
      intro k hk hstarts
      by_contra hout
      have hgone : ¬ ScanKeeps staged starts path k := fun hkeeps => hkeeps.2.1 hstarts
      rw [h k] at hgone
      have hdir : isDir k ∧ k <+: path ∧ NothingElse staged isDir path k := by
        by_contra hdir
        exact hgone ⟨hk, hout, hdir⟩
      exact hout (hn.antisymm hstarts hdir.2.1 ▸ List.prefix_refl path)
    refine ⟨hapart, ?_, ?_⟩
    · intro dir hdir hkind hstart hne hnothing k hk hstarts hkne
      have hgone : ¬ ScanKeeps staged starts path dir := by
        rw [h dir]
        exact fun hkeeps => hkeeps.2.2 ⟨hkind, hstart, hnothing⟩
      have hnot : ¬ starts dir path := fun hs => hne (hn.antisymm hs hstart)
      have hempty : ∀ k', staged k' → starts k' dir → k' ≠ dir → starts k' path := by
        by_contra hempty
        exact hgone ⟨hdir, hnot, fun hall => hempty hall.2.2⟩
      exact hapart k hk (hempty k hk hstarts hkne)
    · intro file hfile hkind hstart hne
      have hout : ¬ path <+: file := fun hs =>
        hne (hstart.eq_of_length (le_antisymm hstart.length_le hs.length_le))
      have hkeeps := (h file).mpr ⟨hfile, hout, fun hall => hkind hall.1⟩
      by_contra hnone
      push Not at hnone
      apply hkeeps.2.2
      exact ⟨hstart, hne, fun k hk hstarts hkne => hn.of_prefix (hnone k hk hstarts hkne)⟩
  · rintro ⟨hapart, hemptied, hfiles⟩ k
    refine and_congr_right fun hk => ?_
    by_cases hstarts : starts k path
    · simp [hstarts, hapart k hk hstarts]
    · have hout : ¬ path <+: k := fun h => hstarts (hn.of_prefix h)
      rw [and_iff_right hstarts, and_iff_right hout, not_iff_not]
      constructor
      · rintro ⟨hstart, hne, hall⟩
        have hkind : isDir k := by
          by_contra hkind
          rcases hfiles k hk hkind hstart hne with ⟨k', hk', hs, hkne, hnot⟩
          exact hnot (hapart k' hk' (hall k' hk' hs hkne))
        refine ⟨hkind, hstart, fun k' hk' hbelow => ?_⟩
        by_cases hkne : k' = k
        · exact .inr ⟨hkne ▸ hkind, hkne ▸ hstart⟩
        · exact .inl (hapart k' hk' (hall k' hk' (hn.of_prefix hbelow) hkne))
      · rintro ⟨hkind, hstart, hnothing⟩
        have hne : k ≠ path := fun heq => hout (heq ▸ List.prefix_refl k)
        exact ⟨hstart, hne, fun k' hk' hs hkne =>
          hn.of_prefix (hemptied k hk hkind hstart hne hnothing k' hk' hs hkne)⟩

end Subtrees
