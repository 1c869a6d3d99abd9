import Oxen.Verification.Paths.RemovedPaths
import Oxen.Verification.Status.Exact

/-! When a pattern finds the same paths in the tree of the head commit and on disk. -/

namespace Oxen

namespace GlobSearch

open MerkleTreeNode CommitMerkleTree Remove Status RelativePath

/-! ## The library -/

/-- Whether a pattern matches a whole path, by a match of single components. `**` stands for
any number of names, where the pattern ends for at least one. -/
def pathMatches (componentMatches : String → String → Bool) : OsPath → OsPath → Bool
  | [], path => path.isEmpty
  | .normal dir :: pattern, path =>
      if dir = "**" then
        (List.range (path.length + 1)).any fun i =>
          (!pattern.isEmpty || 0 < i) && (path.take i).all isNormal &&
            pathMatches componentMatches pattern (path.drop i)
      else
        match path with
        | .normal name :: path =>
            componentMatches dir name && pathMatches componentMatches pattern path
        | _ => false
  | c :: pattern, path =>
      match path with
      | c' :: path => c = c' && pathMatches componentMatches pattern path
      | [] => false

/-- The file system, with what the `glob` library takes for a pattern in it. -/
structure Machine where
  pathExists : OsPath → Bool
  isDir : OsPath → Bool
  componentMatches : String → String → Bool
  parses : OsPath → Bool

/-- The path is matched. A pattern that ends in `**` matches directories only. -/
def Machine.Matches (machine : Machine) (pattern path : OsPath) : Prop :=
  pathMatches machine.componentMatches pattern path = true ∧
    (pattern.getLast? = some (.normal "**") → machine.isDir path = true)

/-- A component with a leading dot may also stand for the directories `.` and `..`. -/
def Machine.MatchesDots (machine : Machine) (pattern : OsPath) : Prop :=
  ∃ dir, .normal dir ∈ pattern ∧ dir.toList.head? = some '.' ∧
    (machine.componentMatches dir "." = true ∨ machine.componentMatches dir ".." = true)

/-- The library yields the existing paths that a pattern matches, or rejects the pattern. What
it yields besides for a component that stands for `.` or `..` is left open. -/
structure Documented (env : Env) (machine : Machine) : Prop where
  yields : ∀ pattern, machine.parses pattern = true → ¬ machine.MatchesDots pattern →
    ∃ found, env.glob pattern = .ok found ∧
      ∀ path, path ∈ found ↔ machine.pathExists path = true ∧ machine.Matches pattern path
  rejects : ∀ pattern, machine.parses pattern = false → ∃ e, env.glob pattern = .error e

variable {env : Env} {machine : Machine} {dirHashes : DirHashes} {pattern path : PathBuf}

variable (env machine dirHashes) in
/-- The working tree holds what the head holds, next to the `.oxen` directory. -/
def HoldsHead : Prop :=
  ∀ p, p ≠ [] → ¬ [".oxen"] <+: p →
    (machine.pathExists (env.path ++ names p) = true ↔ ∃ n, Entry env.toEnv dirHashes p n)

/-- The path lies in the `.oxen` directory. -/
def InOxenDir (env : Env) (path : OsPath) : Prop :=
  env.path ++ [.normal ".oxen"] <+: path

variable (env) in
/-- Both searches find the same paths of the repository. -/
def FindSame (pattern : PathBuf) : Prop :=
  ∃ inTree onDisk, searchMerkleTree env [] pattern = .ok inTree ∧
    searchWorkingDir env [] pattern = .ok onDisk ∧
    ∀ path, ¬ InOxenDir env path →
      (path ∈ onDisk ↔ ∃ p ∈ inTree, path = env.path ++ names p)

/-- The names of the repository's path match themselves, read as a pattern. -/
def RootSelf (m : String → String → Bool) (root : OsPath) : Prop :=
  ∀ dir, .normal dir ∈ root → m dir dir = true

/-- One component for each name. `**` stands for any one name. -/
def OneByOne (m : String → String → Bool) : PathBuf → PathBuf → Prop :=
  List.Forall₂ fun dir name => dir = "**" ∨ m dir name = true

variable (env machine) in
/-- Single components are read the same in both libraries, and a literal one matches only
itself. None stands for `.` or `..`, and no directory above the repository is named `**`. -/
structure SameComponents (pattern : PathBuf) : Prop where
  root : .normal "**" ∉ env.path
  dots : ¬ machine.MatchesDots (env.path ++ names pattern)
  star : "**" ∈ pattern → ∀ name, env.globMatch "**" name = true
  same : ∀ dir ∈ pattern, dir ≠ "**" →
    ∀ name, machine.componentMatches dir name = env.globMatch dir name
  literal : ∀ dir ∈ pattern, isGlobPath dir = false →
    ∀ name, env.globMatch dir name = true ↔ dir = name

variable (env machine dirHashes) in
/-- The repository's path can stand in front of the pattern, and `**` shows no difference: no
entry of the head is matched only where some `**` stands for several names or for none, and
none that is a file where the pattern ends in `**`. -/
structure ReadsAlike (pattern : PathBuf) : Prop where
  parses : machine.parses (env.path ++ names pattern) = true
  root : RootSelf machine.componentMatches env.path ∨
    ∀ p n, Entry env.toEnv dirHashes p n → ¬ [".oxen"] <+: p →
      ¬ OneByOne machine.componentMatches pattern p
  outside : ∀ path, machine.pathExists path = true → ¬ InOxenDir env path →
    (∀ p, p ≠ [] → path ≠ env.path ++ names p) →
    ¬ machine.Matches (env.path ++ names pattern) path
  spans : RootSelf machine.componentMatches env.path →
    ∀ p n, Entry env.toEnv dirHashes p n → ¬ [".oxen"] <+: p →
      pathMatches machine.componentMatches (names pattern) (names p) = true →
      (pattern.getLast? = some "**" → machine.isDir (env.path ++ names p) = true) →
      OneByOne machine.componentMatches pattern p
  final : RootSelf machine.componentMatches env.path → pattern.getLast? = some "**" →
    ∀ p n, Entry env.toEnv dirHashes p n → ¬ [".oxen"] <+: p →
      OneByOne machine.componentMatches pattern p → machine.isDir (env.path ++ names p) = true

variable (env machine dirHashes) in
/-- The joined pattern matches the same entries of the head as its single components do, and
matches neither the repository itself nor a path outside. -/
structure MatchSame (pattern : PathBuf) : Prop where
  parses : machine.parses (env.path ++ names pattern) = true
  entries : ∀ p n, Entry env.toEnv dirHashes p n → ¬ [".oxen"] <+: p →
    (machine.Matches (env.path ++ names pattern) (env.path ++ names p) ↔ TreeMatch env pattern p)
  others : ∀ path, machine.pathExists path = true → ¬ InOxenDir env path →
    (∀ p, p ≠ [] → path ≠ env.path ++ names p) →
    ¬ machine.Matches (env.path ++ names pattern) path

theorem inOxenDir_iff {p : PathBuf} :
    InOxenDir env (env.path ++ names p) ↔ [".oxen"] <+: p := by
  have hnormal : Function.Injective Component.normal := fun _ _ h => Component.normal.inj h
  rw [InOxenDir, List.prefix_append_right_inj]
  exact @List.prefix_map_iff_of_injective _ _ [".oxen"] p _ hnormal

/-- What the search on disk finds. -/
theorem searchWorkingDir_spec (hlibrary : Documented env machine)
    (hparses : machine.parses (env.path ++ names pattern) = true)
    (hdots : ¬ machine.MatchesDots (env.path ++ names pattern)) :
    ∃ onDisk, searchWorkingDir env [] pattern = .ok onDisk ∧ ∀ path, path ∈ onDisk ↔
      machine.pathExists path = true ∧ machine.Matches (env.path ++ names pattern) path := by
  rcases hlibrary.yields _ hparses hdots with ⟨found, hfound, hmem⟩
  refine ⟨found.foldl (fun paths entry => paths.insert entry) [], ?_, fun path => ?_⟩
  · rw [searchWorkingDir, show pattern.map Component.normal = names pattern from rfl, hfound]
    rfl
  · rw [mem_foldl_insert, hmem]
    simp

section

variable {headCommit : Option CommitNode}
  (hcommit : Commits.headCommitMaybe env.db env.refs = .ok headCommit)
  (head : HeadTree env.toEnv (headDirHashes env.toEnv headCommit)) (hfuel : 2 ≤ env.fuel)
  (horder : ∀ l, (env.hashOrder l).Perm l) (hlibrary : Documented env machine)
  (hdisk : HoldsHead env machine (headDirHashes env.toEnv headCommit)) (hpattern : pattern ≠ [])
  (hdots : ¬ machine.MatchesDots (env.path ++ names pattern))

include hcommit head hfuel horder hlibrary hdisk hpattern hdots

/-- Both searches find the same exactly where both ways of matching do. -/
theorem findSame_iff_matchSame :
    FindSame env pattern ↔ MatchSame env machine (headDirHashes env.toEnv headCommit) pattern := by
  rcases searchMerkleTree_spec hcommit head hfuel horder hpattern [] with ⟨inTree, htree, hmem⟩
  simp only [List.not_mem_nil, false_or] at hmem
  constructor
  · rintro ⟨inTree', onDisk, htree', hdisk', hsame⟩
    obtain rfl := Except.ok.inj (htree.symm.trans htree')
    have hparses : machine.parses (env.path ++ names pattern) = true := by
      by_contra hno
      rcases hlibrary.rejects _ (Bool.eq_false_of_not_eq_true hno) with ⟨e, he⟩
      rw [searchWorkingDir, show pattern.map Component.normal = names pattern from rfl, he]
        at hdisk'
      cases hdisk'
    rcases searchWorkingDir_spec hlibrary hparses hdots with ⟨onDisk', hdisk'', hmem'⟩
    obtain rfl := Except.ok.inj (hdisk'.symm.trans hdisk'')
    refine ⟨hparses, fun p n hentry hp => ?_, fun path hexists hoxen hother hmatch => ?_⟩
    · have hexists := (hdisk p hentry.ne_nil hp).mpr ⟨n, hentry⟩
      have hpath := hsame (env.path ++ names p) (fun h => hp (inOxenDir_iff.mp h))
      rw [hmem', and_iff_right hexists] at hpath
      rw [hpath]
      constructor
      · rintro ⟨q, hq, heq⟩
        obtain rfl := names_injective (List.append_cancel_left heq)
        rcases (hmem p).mp hq with ⟨m, hmatch, -⟩
        exact hmatch
      · intro hmatch
        exact ⟨p, (hmem p).mpr ⟨n, hmatch, hentry⟩, rfl⟩
    · rcases (hsame path hoxen).mp ((hmem' path).mpr ⟨hexists, hmatch⟩) with ⟨p, hp, rfl⟩
      rcases (hmem p).mp hp with ⟨n, -, hentry⟩
      exact hother p hentry.ne_nil rfl
  · intro h
    rcases searchWorkingDir_spec hlibrary h.parses hdots with ⟨onDisk, hdisk', hmem'⟩
    refine ⟨inTree, onDisk, htree, hdisk', fun path hoxen => ?_⟩
    rw [hmem']
    constructor
    · rintro ⟨hexists, hmatch⟩
      by_cases hother : ∀ p, p ≠ [] → path ≠ env.path ++ names p
      · exact absurd hmatch (h.others path hexists hoxen hother)
      · rw [not_forall] at hother
        rcases hother with ⟨p, hp⟩
        rw [Classical.not_imp, not_not] at hp
        obtain ⟨hne, rfl⟩ := hp
        have hp : ¬ [".oxen"] <+: p := fun h => hoxen (inOxenDir_iff.mpr h)
        rcases (hdisk p hne hp).mp hexists with ⟨n, hentry⟩
        exact ⟨p, (hmem p).mpr ⟨n, (h.entries p n hentry hp).mp hmatch, hentry⟩, rfl⟩
    · rintro ⟨p, hp, rfl⟩
      rcases (hmem p).mp hp with ⟨n, hmatch, hentry⟩
      have hp : ¬ [".oxen"] <+: p := fun h => hoxen (inOxenDir_iff.mpr h)
      exact ⟨(hdisk p hentry.ne_nil hp).mpr ⟨n, hentry⟩, (h.entries p n hentry hp).mpr hmatch⟩

end

/-! ## Components and names -/

variable {m : String → String → Bool}

/-- The component of a pattern matches that of a path. -/
def ComponentReads (m : String → String → Bool) : Component → Component → Prop
  | .normal dir, c => ∃ name, c = .normal name ∧ m dir name = true
  | c, c' => c' = c

theorem pathMatches_nil_iff {path : OsPath} : pathMatches m [] path = true ↔ path = [] := by
  rw [pathMatches, List.isEmpty_iff]

theorem pathMatches_cons_iff {c : Component} {rest path : OsPath} (hc : c ≠ .normal "**") :
    pathMatches m (c :: rest) path = true ↔
      ∃ c' below, path = c' :: below ∧ ComponentReads m c c' ∧
        pathMatches m rest below = true := by
  have hother : ∀ c, isNormal c = false → (pathMatches m (c :: rest) path = true ↔
      ∃ c' below, path = c' :: below ∧ c' = c ∧ pathMatches m rest below = true) := by
    intro c hc
    have hstep : pathMatches m (c :: rest) path = path.head?.elim false fun c' =>
        c = c' && pathMatches m rest path.tail := by
      cases c with
      | normal dir => cases hc
      | rootDir => cases path <;> rfl
      | curDir => cases path <;> rfl
      | parentDir => cases path <;> rfl
    rw [hstep]
    cases path with
    | nil => simp
    | cons c' path =>
        rw [List.head?_cons, Option.elim_some, List.tail_cons, Bool.and_eq_true,
          decide_eq_true_iff]
        constructor
        · rintro ⟨rfl, h⟩
          exact ⟨c, path, rfl, rfl, h⟩
        · rintro ⟨_, below, heq, rfl, h⟩
          obtain ⟨rfl, rfl⟩ := List.cons.inj heq
          exact ⟨rfl, h⟩
  cases c with
  | normal dir =>
      have hdir : dir ≠ "**" := fun h => hc (congrArg Component.normal h)
      rw [pathMatches.eq_def]
      dsimp only
      rw [if_neg hdir]
      cases path with
      | nil => simp
      | cons c path => cases c <;> simp [ComponentReads]
  | rootDir => exact hother _ rfl
  | curDir => exact hother _ rfl
  | parentDir => exact hother _ rfl

/-- In front of a pattern, components without `**` match one for one. -/
theorem pathMatches_append_iff {front rest path : OsPath} (hfront : .normal "**" ∉ front) :
    pathMatches m (front ++ rest) path = true ↔
      ∃ above below, path = above ++ below ∧ List.Forall₂ (ComponentReads m) front above ∧
        pathMatches m rest below = true := by
  induction front generalizing path with
  | nil => simp
  | cons c front ih =>
      rw [List.mem_cons, not_or] at hfront
      rw [List.cons_append, pathMatches_cons_iff (Ne.symm hfront.1)]
      simp only [ih hfront.2, List.forall₂_cons_left_iff]
      constructor
      · rintro ⟨c', _, rfl, hc, above, below, rfl, habove, hbelow⟩
        exact ⟨c' :: above, below, rfl, ⟨c', above, hc, habove, rfl⟩, hbelow⟩
      · rintro ⟨_, below, rfl, ⟨c', above, hc, habove, rfl⟩, hbelow⟩
        exact ⟨c', above ++ below, rfl, hc, above, below, rfl, habove, hbelow⟩

theorem forall₂_self_iff {root : OsPath} :
    List.Forall₂ (ComponentReads m) root root ↔ RootSelf m root := by
  rw [List.forall₂_same]
  constructor
  · intro h dir hdir
    rcases h _ hdir with ⟨name, hname, hmatch⟩
    obtain rfl := Component.normal.inj hname
    exact hmatch
  · intro h c hc
    cases c with
    | normal dir => exact ⟨dir, rfl, h dir hc⟩
    | rootDir => rfl
    | curDir => rfl
    | parentDir => rfl

/-- Names that stand for themselves alone match one path. -/
theorem eq_of_forall₂ {root above : OsPath} (h : List.Forall₂ (ComponentReads m) root above)
    (hroot : ∀ dir, .normal dir ∈ root → ∀ name, m dir name = true ↔ dir = name) :
    above = root := by
  induction h with
  | nil => rfl
  | @cons c c' root above hreads _ ih =>
      have hc : c' = c := by
        cases c with
        | normal dir =>
            rcases hreads with ⟨name, rfl, hname⟩
            rw [(hroot dir List.mem_cons_self name).mp hname]
        | rootDir => exact hreads
        | curDir => exact hreads
        | parentDir => exact hreads
      rw [hc, ih fun dir hdir => hroot dir (List.mem_cons_of_mem c hdir)]

/-- Below the repository's path both the path and the rest of the pattern have to match. -/
theorem pathMatches_root_iff {root rest below : OsPath} (hroot : .normal "**" ∉ root) :
    pathMatches m (root ++ rest) (root ++ below) = true ↔
      RootSelf m root ∧ pathMatches m rest below = true := by
  rw [pathMatches_append_iff hroot, ← forall₂_self_iff]
  constructor
  · rintro ⟨above, below', heq, habove, hbelow⟩
    obtain ⟨rfl, rfl⟩ := List.append_inj heq habove.length_eq
    exact ⟨habove, hbelow⟩
  · rintro ⟨hself, hbelow⟩
    exact ⟨root, below, rfl, hself, hbelow⟩

/-- A pattern that matches one for one also matches with `**` for any number of names. -/
theorem OneByOne.pathMatches (h : OneByOne m pattern path) :
    pathMatches m (names pattern) (names path) = true := by
  induction h with
  | nil => rfl
  | @cons dir name pattern path hname _ ih =>
      rw [names_cons, names_cons]
      by_cases hdir : dir = "**"
      · rw [GlobSearch.pathMatches.eq_def]
        dsimp only
        rw [if_pos hdir, List.any_eq_true]
        exact ⟨1, by simp, by simpa [isNormal] using ih⟩
      · rw [pathMatches_cons_iff fun h => hdir (Component.normal.inj h)]
        exact ⟨_, _, rfl, ⟨name, rfl, hname.resolve_left hdir⟩, ih⟩

/-- Without `**` there is no other way to match. -/
theorem pathMatches_names_iff {path : OsPath} (hpattern : "**" ∉ pattern) :
    pathMatches m (names pattern) path = true ↔
      ∃ p, path = names p ∧ OneByOne m pattern p := by
  constructor
  · intro h
    induction pattern generalizing path with
    | nil => exact ⟨[], pathMatches_nil_iff.mp h, .nil⟩
    | cons dir pattern ih =>
        rw [List.mem_cons, not_or] at hpattern
        rw [names_cons,
          pathMatches_cons_iff fun h => hpattern.1 (Component.normal.inj h).symm] at h
        rcases h with ⟨_, below, rfl, ⟨name, rfl, hname⟩, hbelow⟩
        rcases ih hpattern.2 hbelow with ⟨p, rfl, hp⟩
        exact ⟨name :: p, rfl, .cons (.inr hname) hp⟩
  · rintro ⟨p, rfl, hp⟩
    exact hp.pathMatches

/-- The tree is searched one component for each name. -/
theorem treeMatch_iff_oneByOne (h : SameComponents env machine pattern)
    (hpattern : pattern ≠ []) :
    TreeMatch env pattern path ↔ OneByOne machine.componentMatches pattern path := by
  have hreads : ∀ dir ∈ pattern, ∀ name, env.globMatch dir name = true ↔
      dir = "**" ∨ machine.componentMatches dir name = true := by
    intro dir hdir name
    by_cases hstar : dir = "**"
    · subst hstar
      exact iff_of_true (h.star hdir name) (.inl rfl)
    · rw [h.same dir hdir hstar, or_iff_right hstar]
  have hliteral := h.literal
  clear h
  induction pattern generalizing path with
  | nil => exact absurd rfl hpattern
  | cons dir pattern ih =>
      have hdir := hreads dir List.mem_cons_self
      have ih := fun path hne => @ih path hne
        (fun x hx => hreads x (List.mem_cons_of_mem dir hx))
        (fun x hx => hliteral x (List.mem_cons_of_mem dir hx))
      constructor
      · intro hmatch
        cases hmatch with
        | last hname => exact .cons ((hdir _).mp hname) .nil
        | wildcard _ hname hrest => exact .cons ((hdir _).mp hname) ((ih _ hrest.ne_nil.1).mp hrest)
        | literal hglob hrest =>
            have hself := (hliteral dir List.mem_cons_self hglob dir).mpr rfl
            exact .cons ((hdir _).mp hself) ((ih _ hrest.ne_nil.1).mp hrest)
      · intro hmatch
        cases hmatch with
        | @cons _ name _ path hname hrest =>
            have hname := (hdir name).mpr hname
            by_cases hlast : pattern = []
            · subst hlast
              cases hrest
              exact .last hname
            · have hrest := (ih path hlast).mpr hrest
              cases hglob : isGlobPath dir with
              | true => exact .wildcard hglob hname hrest
              | false =>
                  obtain rfl := (hliteral dir List.mem_cons_self hglob name).mp hname
                  exact .literal hglob hrest

/-! ## The whole pattern -/

theorem getLast?_root {root : OsPath} (hpattern : pattern ≠ []) :
    (root ++ names pattern).getLast? = some (.normal "**") ↔ pattern.getLast? = some "**" := by
  have hnormal : Function.Injective Component.normal := fun _ _ h => Component.normal.inj h
  rw [List.getLast?_append_of_ne_nil _ fun h => hpattern (names_eq_nil.mp h), names,
    List.getLast?_map]
  exact (Option.map_injective hnormal).eq_iff (b := some "**")

/-- Below the repository's path. -/
theorem matches_root_iff (h : SameComponents env machine pattern) (hpattern : pattern ≠ []) :
    machine.Matches (env.path ++ names pattern) (env.path ++ names path) ↔
      RootSelf machine.componentMatches env.path ∧
        pathMatches machine.componentMatches (names pattern) (names path) = true ∧
          (pattern.getLast? = some "**" → machine.isDir (env.path ++ names path) = true) := by
  rw [Machine.Matches, pathMatches_root_iff h.root, getLast?_root hpattern, and_assoc]

/-- Where components are read the same, the rest is in the head's entries. -/
theorem matchSame_iff_readsAlike (h : SameComponents env machine pattern)
    (hpattern : pattern ≠ []) :
    MatchSame env machine dirHashes pattern ↔ ReadsAlike env machine dirHashes pattern := by
  constructor
  · rintro ⟨hparses, hentries, hothers⟩
    simp only [matches_root_iff h hpattern, treeMatch_iff_oneByOne h hpattern] at hentries
    refine ⟨hparses, ?_, hothers, fun hself p n hentry hp hmatch hlast => ?_,
      fun _ hlast p n hentry hp hone => ?_⟩
    · rw [or_iff_not_imp_left]
      intro hself p n hentry hp hone
      exact hself ((hentries p n hentry hp).mpr hone).1
    · exact (hentries p n hentry hp).mp ⟨hself, hmatch, hlast⟩
    · exact ((hentries p n hentry hp).mpr hone).2.2 hlast
  · intro halike
    refine ⟨halike.parses, fun p n hentry hp => ?_, halike.outside⟩
    rw [matches_root_iff h hpattern, treeMatch_iff_oneByOne h hpattern]
    constructor
    · rintro ⟨hself, hmatch, hlast⟩
      exact halike.spans hself p n hentry hp hmatch hlast
    · intro hone
      rcases halike.root with hself | hno
      · exact ⟨hself, hone.pathMatches, fun hlast => halike.final hself hlast p n hentry hp hone⟩
      · exact absurd hone (hno p n hentry hp)

/-- A pattern without `**` is read alike below a path whose names stand for themselves alone. -/
theorem readsAlike_of_plain (hparses : machine.parses (env.path ++ names pattern) = true)
    (h : SameComponents env machine pattern) (hpattern : pattern ≠ []) (hplain : "**" ∉ pattern)
    (hroot : ∀ dir, .normal dir ∈ env.path →
      ∀ name, machine.componentMatches dir name = true ↔ dir = name) :
    ReadsAlike env machine dirHashes pattern where
  parses := hparses
  root := .inl fun dir hdir => (hroot dir hdir dir).mpr rfl
  outside path _ _ hother hmatch := by
    rcases (pathMatches_append_iff h.root).mp hmatch.1 with ⟨above, _, rfl, habove, hbelow⟩
    rcases (pathMatches_names_iff hplain).mp hbelow with ⟨p, rfl, hp⟩
    refine hother p ?_ (by rw [eq_of_forall₂ habove hroot])
    rintro rfl
    cases hp
    exact hpattern rfl
  spans _ p n _ _ hmatch _ := by
    rcases (pathMatches_names_iff hplain).mp hmatch with ⟨q, heq, hq⟩
    rwa [names_injective heq]
  final _ hlast := absurd (List.mem_of_getLast? hlast) hplain

namespace TwoSidesExample

open NestedExample

def repoPath : OsPath :=
  [.rootDir, .normal "repo"]

def onDisk : List OsPath :=
  [[.rootDir], repoPath, repoPath ++ names ["a"], repoPath ++ names ["d"],
    repoPath ++ names ["d", "x"]]

/-- The repository has the files `a` and `d/x`, in HEAD and on disk. -/
def twoFiles : Machine where
  pathExists path := path ∈ onDisk
  isDir path := path ∈ [[.rootDir], repoPath, repoPath ++ names ["d"]]
  componentMatches dir name := dir = "*" || dir = name
  parses _ := true

def yielded (pattern : OsPath) : List OsPath :=
  onDisk.filter fun path => pathMatches twoFiles.componentMatches pattern path &&
    (pattern.getLast? ≠ some (.normal "**") || twoFiles.isDir path)

def committed : Env :=
  { NestedExample.committed with
    path := repoPath
    toLowercase := String.toLower
    globMatch dir name := dir = "*" || dir = "**" || dir = name
    glob pattern := .ok (yielded pattern)
    hashOrder := id }

theorem documented : Documented committed twoFiles where
  yields pattern _ _ := by
    refine ⟨yielded pattern, rfl, fun path => ?_⟩
    rw [yielded, List.mem_filter, Machine.Matches]
    simp [twoFiles, imp_iff_not_or]
  rejects pattern h := by cases h

theorem holdsHead : HoldsHead committed twoFiles head := by
  intro p hne _
  have hexists : twoFiles.pathExists (repoPath ++ names p) = true ↔
      p = ["a"] ∨ p = ["d"] ∨ p = ["d", "x"] := by
    rw [twoFiles, decide_eq_true_iff]
    constructor
    · intro h
      simp only [onDisk, List.mem_cons, List.not_mem_nil, or_false] at h
      rcases h with h | h | h | h | h
      · simp [repoPath] at h
      · exact absurd (names_eq_nil.mp (List.append_right_eq_self.mp h)) hne
      · exact .inl (names_injective (List.append_cancel_left h))
      · exact .inr (.inl (names_injective (List.append_cancel_left h)))
      · exact .inr (.inr (names_injective (List.append_cancel_left h)))
    · rintro (rfl | rfl | rfl) <;> decide
  rw [show committed.path = repoPath from rfl, hexists]
  constructor
  · rintro (rfl | rfl | rfl)
    · exact ⟨_, entry_iff.mpr (.inl ⟨rfl, rfl⟩)⟩
    · exact ⟨_, entry_iff.mpr (.inr (.inl ⟨rfl, rfl⟩))⟩
    · exact ⟨_, entry_iff.mpr (.inr (.inr ⟨rfl, rfl⟩))⟩
  · rintro ⟨n, hn⟩
    rcases entry_iff.mp hn with ⟨rfl, -⟩ | ⟨rfl, -⟩ | ⟨rfl, -⟩ <;> simp

theorem sameComponents {dir name : String} (hdir : dir = "**" ∨ dir = "d")
    (hname : name = "x" ∨ name = "*") :
    SameComponents committed twoFiles [dir, name] where
  root := by decide
  dots := by
    rintro ⟨c, hc, hdot, -⟩
    have hc : c ∈ ["repo", dir, name] := by
      simpa [committed, repoPath, names] using hc
    have hdots : ∀ c ∈ ["repo", "**", "d", "x", "*"], c.toList.head? ≠ some '.' := by
      decide
    refine hdots c ?_ hdot
    simp only [List.mem_cons, List.not_mem_nil, or_false] at hc ⊢
    rcases hdir with rfl | rfl <;> rcases hname with rfl | rfl <;> tauto
  star _ _ := rfl
  same x hx hstar name := by
    simp [committed, twoFiles, hstar]
  literal x hx hglob name := by
    have hstar : x ≠ "*" ∧ x ≠ "**" := by
      constructor
      · rintro rfl
        cases hglob
      · rintro rfl
        cases hglob
    simp [committed, hstar.1, hstar.2]

/-- Nothing but `d/x` is matched, with any number of names for the `**`. -/
theorem readsAlike : ReadsAlike committed twoFiles head ["**", "x"] where
  parses := rfl
  root := .inl (by
    intro dir hdir
    obtain rfl : dir = "repo" := by
      simpa [committed, repoPath] using hdir
    rfl)
  outside path hexists _ hother hmatch := by
    have hin : path ∈ onDisk := of_decide_eq_true hexists
    simp only [onDisk, List.mem_cons, List.not_mem_nil, or_false] at hin
    rcases hin with rfl | rfl | rfl | rfl | rfl
    · exact absurd hmatch.1 (by decide)
    · exact absurd hmatch.1 (by decide)
    · exact hother ["a"] (by decide) rfl
    · exact hother ["d"] (by decide) rfl
    · exact hother ["d", "x"] (by decide) rfl
  spans _ p n hentry _ hmatch _ := by
    rcases entry_iff.mp hentry with ⟨rfl, -⟩ | ⟨rfl, -⟩ | ⟨rfl, -⟩
    · exact absurd hmatch (by decide)
    · exact absurd hmatch (by decide)
    · exact .cons (.inl rfl) (.cons (.inr rfl) .nil)
  final _ hlast := absurd hlast (by decide)

end TwoSidesExample

end GlobSearch

end Oxen
