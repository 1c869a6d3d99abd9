import Oxen.Lib.OnePass
import Oxen.Model.RelativePath

/-! When a path is found relative to a directory. -/

namespace Oxen

namespace RelativePath

open OnePass

variable {toLowercase : String → String}

/-- A path of normal components. -/
def names (path : PathBuf) : OsPath :=
  path.map .normal

@[simp] theorem names_eq_nil {path : PathBuf} : names path = [] ↔ path = [] :=
  List.map_eq_nil_iff

@[simp] theorem length_names (path : PathBuf) : (names path).length = path.length :=
  List.length_map _

@[simp] theorem names_nil : names [] = [] := rfl

@[simp] theorem names_cons (name : String) (path : PathBuf) :
    names (name :: path) = .normal name :: names path := rfl

theorem names_drop {path : PathBuf} {i : ℕ} (h : i < path.length) :
    names (path.drop i) = .normal path[i] :: names (path.drop (i + 1)) := by
  rw [List.drop_eq_getElem_cons h, names_cons]

theorem names_injective : Function.Injective names :=
  List.map_injective_iff.mpr fun _ _ h => Component.normal.inj h

@[simp] theorem names_inj {path path' : PathBuf} : names path = names path' ↔ path = path' :=
  names_injective.eq_iff

/-! ## Components -/

/-- Components match when they are equal, or equal up to case at the same length. -/
def Same (toLowercase : String → String) (name name' : String) : Prop :=
  name = name' ∨
    name.utf8ByteSize = name'.utf8ByteSize ∧ toLowercase name = toLowercase name'

instance (name name' : String) : Decidable (Same toLowercase name name') :=
  inferInstanceAs (Decidable (_ ∨ _))

theorem sameComponent_iff {name name' : String} :
    sameComponent toLowercase (.normal name) (.normal name') = true ↔
      Same toLowercase name name' := by
  simp only [sameComponent, Component.text, Same]
  by_cases heq : name = name'
  · simp [heq]
  · by_cases hsize : name.utf8ByteSize = name'.utf8ByteSize
    · simp only [heq, hsize, if_false, if_true, true_and, false_or]
      exact decide_eq_true_iff
    · simp [heq, hsize]

theorem foldl_pushComponent_names (path : PathBuf) (result : OsPath) :
    (names path).foldl pushComponent result = result ++ names path := by
  induction path generalizing result with
  | nil => simp [names]
  | cons name path ih =>
      rw [names_cons, List.foldl_cons, ih, pushComponent, if_neg (by simp), List.append_assoc,
        List.singleton_append]

@[simp] theorem filter_isNormal_names (path : PathBuf) :
    (names path).filter isNormal = names path := by
  rw [List.filter_eq_self]
  intro component h
  rcases List.mem_map.mp h with ⟨name, -, rfl⟩
  rfl

theorem normalsFrom_append (read rest : PathBuf) :
    normalsFrom (names (read ++ rest)) read.length = some (names rest) := by
  have hdrop : (names (read ++ rest)).drop read.length = names rest := by
    rw [names, List.map_append, List.drop_left' (List.length_map _)]
    rfl
  rw [normalsFrom, if_pos (by simp), hdrop, filter_isNormal_names, foldl_pushComponent_names,
    List.nil_append]

/-! ## The two loops -/

variable (toLowercase) in
/-- A pass over the path: it has read components of runs of `dir` that were broken off, and of
the one that is going on. -/
abbrev Read (dir : PathBuf) : PathBuf → ℕ → ℕ → Prop :=
  Reads (Same toLowercase) dir

variable (toLowercase) in
/-- What `path_relative_to_dir` returns: what comes after the component at which as many
components were read as the directory has, in whatever runs. -/
inductive Returns (path dir : PathBuf) : Option OsPath → Prop
  | counted {read rest : PathBuf} {lost current : ℕ} (hpath : path = read ++ rest)
      (hread : Read toLowercase dir read lost current) (hcurrent : 0 < current)
      (hcount : lost + current = dir.length) : Returns path dir (some (names rest))
  | uncounted (h : ∀ read rest lost current, path = read ++ rest →
      Read toLowercase dir read lost current → lost + current < dir.length) :
      Returns path dir (some (names path))

variable (toLowercase) in
/-- The pass reads all of `dir` in one run. -/
def Finds (path dir : PathBuf) : Prop :=
  ∃ read rest lost, path = read ++ rest ∧ Read toLowercase dir read lost dir.length

variable {path dir : PathBuf}

theorem read_self (dir : PathBuf) : Read toLowercase dir dir 0 dir.length :=
  reads_of_forall₂ (List.forall₂_same.mpr fun _ _ => Or.inl rfl)

theorem uncounted_of_read {lost current : ℕ} (h : Read toLowercase dir path lost current)
    (hcount : lost + current < dir.length) (read rest : PathBuf) (lost' current' : ℕ)
    (hpath : path = read ++ rest) (hread : Read toLowercase dir read lost' current') :
    lost' + current' < dir.length := by
  subst hpath
  rcases h.of_append with ⟨m, k, hmk, hle, -⟩
  obtain ⟨rfl, rfl⟩ := hread.unique hmk
  omega

theorem returns_of_length_lt (h : path.length < dir.length) :
    Returns toLowercase path dir (some (names path)) := by
  refine .uncounted fun read rest lost current hpath hread => ?_
  have hle := hread.le_length
  rw [hpath, List.length_append] at h
  omega

section Steps

variable {pathComponents pathIter dirIter : OsPath} {first : String} {others : PathBuf}
  {x name next : String} {matched startIndex : ℕ}

theorem pathRelativeLoop_last (h : Same toLowercase x name)
    (hall : matched + 1 = (first :: others).length) :
    pathRelativeLoop toLowercase pathComponents (names (first :: others))
        (.normal x :: pathIter) dirIter (.normal name) matched startIndex =
      normalsFrom pathComponents (startIndex + 1) := by
  rw [pathRelativeLoop.eq_def]
  simp only [sameComponent_iff.mpr h, length_names, hall, if_true]

theorem pathRelativeLoop_goOn (h : Same toLowercase x name)
    (hall : matched + 1 ≠ (first :: others).length) :
    pathRelativeLoop toLowercase pathComponents (names (first :: others))
        (.normal x :: pathIter) (.normal next :: dirIter) (.normal name) matched startIndex =
      pathRelativeLoop toLowercase pathComponents (names (first :: others)) pathIter dirIter
        (.normal next) (matched + 1) (startIndex + 1) := by
  rw [pathRelativeLoop.eq_def]
  simp only [sameComponent_iff.mpr h, length_names, hall, if_true, if_false]

theorem pathRelativeLoop_breakOff (h : ¬ Same toLowercase x name) :
    pathRelativeLoop toLowercase pathComponents (names (first :: others))
        (.normal x :: pathIter) dirIter (.normal name) matched startIndex =
      pathRelativeLoop toLowercase pathComponents (names (first :: others)) pathIter
        (names others) (.normal first) matched (startIndex + 1) := by
  rw [pathRelativeLoop.eq_def]
  simp only [if_neg fun hsame => h (sameComponent_iff.mp hsame), names_cons]

theorem isRelativeLoop_last (h : Same toLowercase x name)
    (hall : matched + 1 = (first :: others).length) :
    isRelativeLoop toLowercase (names (first :: others)) (.normal x :: pathIter) dirIter
      (.normal name) matched = some true := by
  rw [isRelativeLoop.eq_def]
  simp only [sameComponent_iff.mpr h, length_names, hall, if_true]

theorem isRelativeLoop_goOn (h : Same toLowercase x name)
    (hall : matched + 1 ≠ (first :: others).length) :
    isRelativeLoop toLowercase (names (first :: others)) (.normal x :: pathIter)
        (.normal next :: dirIter) (.normal name) matched =
      isRelativeLoop toLowercase (names (first :: others)) pathIter dirIter (.normal next)
        (matched + 1) := by
  rw [isRelativeLoop.eq_def]
  simp only [sameComponent_iff.mpr h, length_names, hall, if_true, if_false]

theorem isRelativeLoop_breakOff (h : ¬ Same toLowercase x name) :
    isRelativeLoop toLowercase (names (first :: others)) (.normal x :: pathIter) dirIter
        (.normal name) matched =
      isRelativeLoop toLowercase (names (first :: others)) pathIter (names others)
        (.normal first) 0 := by
  rw [isRelativeLoop.eq_def]
  simp only [if_neg fun hsame => h (sameComponent_iff.mp hsame), names_cons]

end Steps

theorem returns_pathRelativeLoop {first : String} {others read rest : PathBuf}
    {name : String} {lost current : ℕ} (hpath : path = read ++ rest)
    (hread : Read toLowercase (first :: others) read lost current)
    (hname : (first :: others)[current]? = some name)
    (hcount : lost + current < (first :: others).length) :
    Returns toLowercase path (first :: others)
      (pathRelativeLoop toLowercase (names path) (names (first :: others)) (names rest)
        (names ((first :: others).drop (current + 1))) (.normal name) (lost + current)
        read.length) := by
  induction rest generalizing read lost current name with
  | nil =>
      rw [List.append_nil] at hpath
      subst hpath
      rw [names_nil, pathRelativeLoop, foldl_pushComponent_names, List.nil_append]
      exact .uncounted (uncounted_of_read hread hcount)
  | cons x rest ih =>
      have hpath' : path = (read ++ [x]) ++ rest := by simp [hpath]
      have hlength : (read ++ [x]).length = read.length + 1 := by simp
      rw [names_cons x]
      by_cases hsame : Same toLowercase x name
      · have hgo := Reads.goOn hread hname hsame
        by_cases hall : lost + current + 1 = (first :: others).length
        · have hrest : normalsFrom (names path) (read.length + 1) = some (names rest) := by
            rw [hpath', ← hlength, normalsFrom_append]
          rw [pathRelativeLoop_last hsame hall, hrest]
          exact .counted hpath' hgo (Nat.succ_pos _) hall
        · have hlt : current + 1 < (first :: others).length := by omega
          rw [names_drop hlt, pathRelativeLoop_goOn hsame hall, ← hlength]
          exact ih hpath' hgo (List.getElem?_eq_getElem hlt) (by omega)
      · rw [pathRelativeLoop_breakOff hsame, ← hlength]
        exact ih hpath' (.breakOff hread hname hsame) rfl hcount

theorem returns_pathRelativeToDir (hdir : dir ≠ []) (hpath : path ≠ []) :
    Returns toLowercase path dir
      (pathRelativeToDir toLowercase (names path) (names dir)) := by
  cases dir with
  | nil => exact absurd rfl hdir
  | cons first others =>
      have hnil : names path ≠ [] := names_eq_nil.not.mpr hpath
      by_cases heq : first :: others = path
      · subst heq
        rw [pathRelativeToDir.eq_def, if_pos (.inr rfl)]
        exact .counted (List.append_nil _).symm (read_self _) (Nat.succ_pos _) (Nat.zero_add _)
      · have heq' : names (first :: others) ≠ names path := names_inj.not.mpr heq
        rw [pathRelativeToDir.eq_def, if_neg (not_or.mpr ⟨hnil, heq'⟩)]
        by_cases hlong : (first :: others).length > path.length
        · rw [if_pos (.inr (by simpa using hlong)), filter_isNormal_names,
            foldl_pushComponent_names, List.nil_append]
          exact returns_of_length_lt hlong
        · rw [if_neg (by simpa using hlong)]
          exact returns_pathRelativeLoop (List.nil_append path).symm .start rfl (Nat.succ_pos _)

theorem isRelativeLoop_eq {first : String} {others read rest : PathBuf} {name : String}
    {lost current : ℕ} (hpath : path = read ++ rest)
    (hread : Read toLowercase (first :: others) read lost current)
    (hname : (first :: others)[current]? = some name) :
    ∃ found, isRelativeLoop toLowercase (names (first :: others)) (names rest)
        (names ((first :: others).drop (current + 1))) (.normal name) current = some found ∧
      (found = true ↔ Finds toLowercase path (first :: others)) := by
  have hlt := (List.getElem?_eq_some_iff.mp hname).1
  induction rest generalizing read lost current name with
  | nil =>
      refine ⟨false, by rw [names_nil, isRelativeLoop], ?_⟩
      refine iff_of_false Bool.false_ne_true ?_
      rintro ⟨read', rest, lost', heq, hread'⟩
      rw [List.append_nil] at hpath
      subst hpath heq
      rcases hread.of_append with ⟨m, k, hk, -, hbreak⟩
      have hfull := (hread'.unique hk).2
      cases rest with
      | nil =>
          rw [List.append_nil] at hread
          have := (hread'.unique hread).2
          omega
      | cons x rest =>
          have := hbreak (List.cons_ne_nil x rest)
          omega
  | cons x rest ih =>
      have hpath' : path = (read ++ [x]) ++ rest := by simp [hpath]
      rw [names_cons x]
      by_cases hsame : Same toLowercase x name
      · have hgo := Reads.goOn hread hname hsame
        by_cases hall : current + 1 = (first :: others).length
        · rw [isRelativeLoop_last hsame hall]
          refine ⟨true, rfl, iff_of_true rfl ⟨read ++ [x], rest, lost, hpath', ?_⟩⟩
          rwa [← hall]
        · have hnext : current + 1 < (first :: others).length := by omega
          rw [names_drop hnext, isRelativeLoop_goOn hsame hall]
          exact ih hpath' hgo (List.getElem?_eq_getElem hnext) hnext
      · rw [isRelativeLoop_breakOff hsame]
        exact ih hpath' (.breakOff hread hname hsame) rfl (Nat.succ_pos _)

theorem isRelativeToDir_eq (hdir : dir ≠ []) (hpath : path ≠ []) :
    ∃ found, isRelativeToDir toLowercase (names path) (names dir) = some found ∧
      (found = true ↔ Finds toLowercase path dir) := by
  cases dir with
  | nil => exact absurd rfl hdir
  | cons first others =>
      have hnil : names path ≠ [] := names_eq_nil.not.mpr hpath
      by_cases heq : first :: others = path
      · subst heq
        rw [isRelativeToDir.eq_def, if_pos (.inr rfl)]
        exact ⟨true, rfl, iff_of_true rfl ⟨_, [], 0, (List.append_nil _).symm, read_self _⟩⟩
      · have heq' : names (first :: others) ≠ names path := names_inj.not.mpr heq
        rw [isRelativeToDir.eq_def, if_neg (not_or.mpr ⟨hnil, heq'⟩)]
        by_cases hlong : (first :: others).length > path.length
        · rw [if_pos (.inr (by simpa using hlong))]
          refine ⟨false, rfl, iff_of_false Bool.false_ne_true ?_⟩
          rintro ⟨read, rest, lost, rfl, hread⟩
          have hle := hread.le_length
          rw [List.length_append] at hlong
          omega
        · rw [if_neg (by simpa using hlong)]
          exact isRelativeLoop_eq (List.nil_append path).symm .start rfl

/-! ## Paths under a directory -/

variable (toLowercase) in
/-- What the two functions are to return: what comes after a place where the directory stands
in the path, or the path itself. -/
structure Relative (path dir : PathBuf) : Prop where
  under : Occurs (Same toLowercase) dir path →
    isRelativeToDir toLowercase (names path) (names dir) = some true ∧
      ∃ before found after, path = before ++ found ++ after ∧
        List.Forall₂ (Same toLowercase) found dir ∧
        pathRelativeToDir toLowercase (names path) (names dir) = some (names after)
  apart : ¬ Occurs (Same toLowercase) dir path →
    isRelativeToDir toLowercase (names path) (names dir) = some false ∧
      pathRelativeToDir toLowercase (names path) (names dir) = some (names path)

variable (toLowercase) in
/-- The path is not empty, no occurrence of the directory is hidden by a broken-off one, and the
components of broken-off ones do not make up a directory that is not there. -/
structure OnePassSuffices (path dir : PathBuf) : Prop where
  ne_nil : path ≠ []
  finds : Occurs (Same toLowercase) dir path → Finds toLowercase path dir
  counts : ∀ read rest lost current, path = read ++ rest →
    Read toLowercase dir read lost current → 0 < current → lost + current = dir.length →
    EndsWith (Same toLowercase) dir read

theorem Finds.occurs (h : Finds toLowercase path dir) : Occurs (Same toLowercase) dir path := by
  rcases h with ⟨read, rest, lost, rfl, hread⟩
  exact hread.endsWith.occurs rest

theorem isRelativeToDir_nil (dir : PathBuf) :
    isRelativeToDir toLowercase (names []) (names dir) = some true := by
  rw [isRelativeToDir.eq_def, if_pos (.inl names_nil)]

theorem not_occurs_nil (hdir : dir ≠ []) : ¬ Occurs (Same toLowercase) dir [] := by
  rintro ⟨before, found, after, h, hfound⟩
  have hnil : found = [] := by
    have hnils := List.append_eq_nil_iff.mp h.symm
    exact (List.append_eq_nil_iff.mp hnils.1).2
  subst hnil
  cases hfound
  exact hdir rfl

theorem relative_of_suffices (hdir : dir ≠ []) (h : OnePassSuffices toLowercase path dir) :
    Relative toLowercase path dir := by
  rcases @isRelativeToDir_eq toLowercase path dir hdir h.ne_nil with ⟨found, hrel, hfinds⟩
  have hreturns := @returns_pathRelativeToDir toLowercase path dir hdir h.ne_nil
  generalize hresult : pathRelativeToDir toLowercase (names path) (names dir) = result at hreturns
  constructor
  · intro hoccurs
    have hread := h.finds hoccurs
    refine ⟨by rw [hrel, hfinds.mpr hread], ?_⟩
    cases hreturns with
    | counted hpath hread hcurrent hcount =>
        rcases h.counts _ _ _ _ hpath hread hcurrent hcount with ⟨before, found, rfl, hfound⟩
        exact ⟨before, found, _, hpath, hfound, hresult⟩
    | uncounted hno =>
        rcases hread with ⟨read, rest, lost, hpath, hread⟩
        have := hno read rest lost _ hpath hread
        omega
  · intro hoccurs
    have hfalse : found ≠ true := fun htrue => hoccurs (hfinds.mp htrue).occurs
    refine ⟨by rw [hrel, Bool.eq_false_of_not_eq_true hfalse], ?_⟩
    cases hreturns with
    | counted hpath hread hcurrent hcount =>
        have hends := h.counts _ _ _ _ hpath hread hcurrent hcount
        rw [hpath] at hoccurs
        exact absurd (hends.occurs _) hoccurs
    | uncounted hno => exact hresult

theorem suffices_of_relative (hdir : dir ≠ []) (h : Relative toLowercase path dir) :
    OnePassSuffices toLowercase path dir := by
  have hne : path ≠ [] := by
    rintro rfl
    have hfalse := (h.apart (not_occurs_nil hdir)).1
    rw [isRelativeToDir_nil] at hfalse
    cases hfalse
  refine ⟨hne, fun hoccurs => ?_, fun read rest lost current hpath hread hcurrent hcount => ?_⟩
  · rcases @isRelativeToDir_eq toLowercase path dir hdir hne with ⟨found, hrel, hfinds⟩
    rw [(h.under hoccurs).1] at hrel
    exact hfinds.mp (Option.some.inj hrel).symm
  · have hreturns := @returns_pathRelativeToDir toLowercase path dir hdir hne
    generalize hresult : pathRelativeToDir toLowercase (names path) (names dir) = result
      at hreturns
    cases hreturns with
    | uncounted hno =>
        have := hno read rest lost current hpath hread
        omega
    | counted hpath' hread' hcurrent' hcount' =>
        rename_i read' rest' lost' current'
        -- Both end at the component that completes the count.
        obtain rfl : rest = rest' := by
          have hle : lost' + current' ≤ lost + current := by omega
          have hge : lost + current ≤ lost' + current' := by omega
          rcases List.append_eq_append_iff.mp (hpath.symm.trans hpath') with
            ⟨mid, rfl, hrest⟩ | ⟨mid, rfl, hrest⟩
          · rw [hread.eq_nil_of_le hread' hcurrent' hle] at hrest
            exact hrest
          · rw [hread'.eq_nil_of_le hread hcurrent hge] at hrest
            exact hrest.symm
        by_cases hoccurs : Occurs (Same toLowercase) dir path
        · rcases (h.under hoccurs).2 with ⟨before, found, after, hpath'', hfound, hafter⟩
          rw [hresult] at hafter
          obtain rfl := names_injective (Option.some.inj hafter)
          rw [hpath] at hpath''
          exact ⟨before, found, List.append_cancel_right hpath'', hfound⟩
        · have hwhole := (h.apart hoccurs).2
          rw [hresult] at hwhole
          obtain rfl := names_injective (Option.some.inj hwhole)
          have hle := hread.le_length
          have hlength := congrArg List.length hpath
          rw [List.length_append] at hlength
          omega

/-- A directory in front of the path is read at once. -/
theorem suffices_of_front {front rest : PathBuf} (hdir : dir ≠ [])
    (hfront : List.Forall₂ (Same toLowercase) front dir) :
    OnePassSuffices toLowercase (front ++ rest) dir := by
  have hread := reads_of_forall₂ hfront
  have hlength := hfront.length_eq
  refine ⟨?_, fun _ => ⟨front, rest, 0, rfl, hread⟩, ?_⟩
  · intro hnil
    rw [(List.append_eq_nil_iff.mp hnil).1] at hlength
    exact hdir (List.length_eq_zero_iff.mp hlength.symm)
  · intro read rest' lost current hpath hread' hcurrent hcount
    have hpos := List.length_pos_iff.mpr hdir
    obtain rfl : front = read := by
      rcases List.append_eq_append_iff.mp hpath with ⟨mid, rfl, -⟩ | ⟨mid, rfl, -⟩
      · rw [hread.eq_nil_of_le hread' hcurrent (by omega), List.append_nil]
      · rw [hread'.eq_nil_of_le hread hpos (by omega), List.append_nil]
    exact ⟨[], front, rfl, hfront⟩

/-- A path below any directory, relative to it. -/
theorem pathRelativeLoop_below {root done todo pathComponents : OsPath} {c : Component}
    (hroot : root = done ++ c :: todo) (hpath : pathComponents = root ++ names path) :
    pathRelativeLoop toLowercase pathComponents root (c :: todo ++ names path) todo c done.length
      done.length = some (names path) := by
  induction todo generalizing done c with
  | nil =>
      have hlength : done.length + 1 = root.length := by simp [hroot]
      rw [List.cons_append, pathRelativeLoop.eq_def]
      simp only [sameComponent, if_true, hlength]
      rw [hpath, normalsFrom, if_pos (by simp), List.drop_left, filter_isNormal_names,
        foldl_pushComponent_names, List.nil_append]
  | cons next todo ih =>
      have hlength : done.length + 1 ≠ root.length := by simp [hroot]
      rw [List.cons_append, pathRelativeLoop.eq_def]
      simp only [sameComponent, if_true, hlength, if_false]
      have hnext := @ih (done ++ [c]) next (by simp [hroot])
      rwa [List.length_append, List.length_singleton] at hnext

theorem pathRelativeToDir_below (root : OsPath) (path : PathBuf) :
    pathRelativeToDir toLowercase (root ++ names path) root = some (names path) := by
  rw [pathRelativeToDir.eq_def]
  cases root with
  | nil =>
      rw [List.nil_append]
      by_cases hpath : names path = []
      · rw [if_pos (.inl hpath), hpath]
      · rw [if_neg (not_or.mpr ⟨hpath, Ne.symm hpath⟩), if_pos (.inl rfl), filter_isNormal_names,
          foldl_pushComponent_names, List.nil_append]
  | cons c root =>
      by_cases hpath : path = []
      · subst hpath
        rw [names_nil, List.append_nil, if_pos (.inr rfl)]
      · have hne : c :: root ≠ c :: root ++ names path := by
          intro heq
          exact hpath (names_eq_nil.mp (List.append_right_eq_self.mp heq.symm))
        have hcons : c :: root ++ names path ≠ [] := List.cons_ne_nil c _
        rw [if_neg (not_or.mpr ⟨hcons, hne⟩), if_neg (by simp)]
        exact @pathRelativeLoop_below toLowercase path _ [] root _ c rfl rfl

/-- The two functions are right exactly where one pass suffices. -/
theorem relative_iff (toLowercase : String → String) (path dir : PathBuf) (hdir : dir ≠ []) :
    Relative toLowercase path dir ↔ OnePassSuffices toLowercase path dir :=
  ⟨suffices_of_relative hdir, relative_of_suffices hdir⟩

theorem relative_data : Relative String.toLower ["data", "test", "file.txt"] ["data", "test"] :=
  (relative_iff String.toLower _ _ (by decide)).mpr
    (@suffices_of_front _ _ ["data", "test"] ["file.txt"] (by decide) (by decide))

/-- A broken-off occurrence hides the one that begins in it, and two broken-off ones count as
a whole one. -/
theorem not_relative : ¬ Relative String.toLower ["a", "a", "b"] ["a", "b"] ∧
    ¬ Relative String.toLower ["a", "x", "a"] ["a", "b"] := by
  constructor
  · intro h
    have hoccurs : Occurs (Same String.toLower) ["a", "b"] ["a", "a", "b"] :=
      ⟨["a"], ["a", "b"], [], rfl, List.forall₂_same.mpr fun _ _ => .inl rfl⟩
    have hfalse : isRelativeToDir String.toLower (names ["a", "a", "b"]) (names ["a", "b"]) =
        some false := by decide +kernel
    rw [(h.under hoccurs).1] at hfalse
    cases hfalse
  · intro h
    have hfalse : isRelativeToDir String.toLower (names ["a", "x", "a"]) (names ["a", "b"]) =
        some false := by decide +kernel
    have hnothing : pathRelativeToDir String.toLower (names ["a", "x", "a"]) (names ["a", "b"]) =
        some (names []) := by decide +kernel
    by_cases hoccurs : Occurs (Same String.toLower) ["a", "b"] ["a", "x", "a"]
    · rw [(h.under hoccurs).1] at hfalse
      cases hfalse
    · rw [(h.apart hoccurs).2] at hnothing
      cases hnothing

end RelativePath

end Oxen
