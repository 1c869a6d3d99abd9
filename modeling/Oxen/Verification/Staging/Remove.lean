import Oxen.Model.Remove
import Oxen.Verification.Tree.FileMap

/-! What a removal of several paths has done when one of them fails. -/

namespace Oxen

namespace WorkingTree

variable (disk : WorkingTree) (path : PathBuf)

theorem lookup_eraseBelow (x : PathBuf) :
    (disk.eraseBelow path).lookup x =
      if x = [] then some .dir else if path <+: x then none else disk.lookup x := by
  by_cases hx : x = []
  · rw [if_pos hx, hx, lookup_nil]
  rw [if_neg hx, lookup_of_ne_nil _ hx, lookup_of_ne_nil _ hx]
  apply Option.ext
  intro entry
  rw [← Option.mem_def, AList.mem_lookup_iff]
  by_cases hpath : path <+: x
  · rw [if_pos hpath]
    constructor
    · intro h
      exact absurd hpath (by simpa using (List.mem_filter.mp h).2)
    · intro h
      cases h
  · rw [if_neg hpath, ← Option.mem_def, AList.mem_lookup_iff]
    constructor
    · exact fun h => (List.mem_filter.mp h).1
    · exact fun h => List.mem_filter.mpr ⟨h, by simpa using hpath⟩

variable {disk path}

/-- Nothing lies below what is missing or is a file. -/
theorem lookup_eq_none_of_isPrefix {x : PathBuf} (h : disk.lookup path ≠ some .dir)
    (hpath : path <+: x) (hne : path ≠ x) : disk.lookup x = none := by
  rcases hpath with ⟨rest, rfl⟩
  by_contra hx
  refine h (disk.isDir_of_isPrefix ?_ hx)
  rintro rfl
  exact hne (List.append_nil path).symm

theorem removeFile_eq_error (h : ∀ content mtime, disk.lookup path ≠ some (.file content mtime)) :
    disk.removeFile path = .error (.fileError path) := by
  unfold removeFile
  split
  · next content mtime hfile => exact absurd hfile (h content mtime)
  · rfl

end WorkingTree

namespace Remove

open FirstFailure

variable {env : Env} {dirHashes : DirHashes} {recursive : Bool} {s t : State} {path q x : PathBuf}
  {done : List PathBuf}

/-! ## One path -/

inductive Kind where
  | dir
  | file
deriving DecidableEq

/-- What a path stages, and whether it is then taken out of the working tree, as what. It depends
on the committed tree only. -/
def plan (env : Env) (dirHashes : DirHashes) (recursive : Bool) (path : PathBuf) :
    List Put × Except OxenError Kind :=
  let parentPath := path.dropLast
  match dirWithChildren env dirHashes parentPath with
  | none => ([], .error (parentNotFound path))
  | some parentNode =>
      match parentNode.getByPath (path.drop parentPath.length) with
      | none => ([], .error (mustBeCommitted path))
      | some (.mk (.directory _) _) =>
          if !recursive then ([], .error (requiresRecursive path))
          else
            let inner := removeDirInner env dirHashes path
            (inner.1, inner.2.map fun _ => .dir)
      | some (.mk (.file fileNode) _) => (processRemoveFileAndParents path fileNode, .ok .file)
      | some _ => ([], .error (.basicStr "Error: Unexpected file type"))

def onDisk : Kind → State → PathBuf → State × Except OxenError Unit
  | .dir => removeDirOnDisk
  | .file => removeFileOnDisk

/-- The entries are put first; then the path is taken out. -/
theorem removePath_eq (env : Env) (dirHashes : DirHashes) (recursive : Bool) (s : State)
    (path : PathBuf) :
    removePath env dirHashes recursive s path =
      match (plan env dirHashes recursive path).2 with
      | .error e =>
          ({ s with staged :=
            KeyedMap.insertAll s.staged (plan env dirHashes recursive path).1 }, .error e)
      | .ok kind =>
          onDisk kind
            { s with staged := KeyedMap.insertAll s.staged (plan env dirHashes recursive path).1 }
            path := by
  unfold removePath plan
  dsimp only
  cases dirWithChildren env dirHashes path.dropLast with
  | none => rfl
  | some parentNode =>
      dsimp only
      cases parentNode.getByPath (path.drop path.dropLast.length) with
      | none => rfl
      | some found =>
          obtain ⟨node, children⟩ := found
          cases node with
          | directory d =>
              cases recursive with
              | false => rfl
              | true =>
                  dsimp only [Bool.not_true, Bool.false_eq_true, if_false]
                  rcases removeDirInner env dirHashes path with ⟨puts, result⟩
                  cases result with
                  | error e => rfl
                  | ok u => rfl
          | file f => rfl
          | vnode v => rfl
          | commit c => rfl

section

variable (env dirHashes recursive)

def puts (path : PathBuf) : List Put :=
  (plan env dirHashes recursive path).1

/-- The path takes the other one out of the working tree with it. -/
def Takes (path x : PathBuf) : Prop :=
  path ≠ [] ∧ path <+: x ∧ ¬ ((plan env dirHashes recursive path).2 = .ok .dir ∧ path = [".oxen"])

/-- On disk there is a file in place of the directory, or a directory in place of the file. -/
def Clashes (s : State) (path : PathBuf) : Prop :=
  (plan env dirHashes recursive path).2 = .ok .dir ∧ path ≠ [".oxen"] ∧
      (∃ content mtime, s.disk.lookup path = some (.file content mtime)) ∨
    (plan env dirHashes recursive path).2 = .ok .file ∧ s.disk.lookup path = some .dir

/-- The path is refused, or it cannot be taken out of the working tree, where no path before it
has taken it out. -/
def Fails (s : State) (done : List PathBuf) (path : PathBuf) : Prop :=
  (∃ e, (plan env dirHashes recursive path).2 = .error e) ∨
    Clashes env dirHashes recursive s path ∧ ∀ q ∈ done, ¬ Takes env dirHashes recursive q path

open Classical in
/-- The state once some paths are removed. -/
structure After (s : State) (done : List PathBuf) (t : State) : Prop where
  staged : t.staged = KeyedMap.insertAll s.staged (done.flatMap (puts env dirHashes recursive))
  disk : ∀ x, t.disk.lookup x =
    if ∃ q ∈ done, Takes env dirHashes recursive q x then none else s.disk.lookup x

end

theorem not_takes_nil : ¬ Takes env dirHashes recursive q [] :=
  fun h => h.1 (List.prefix_nil.mp h.2.1)

theorem after_nil : After env dirHashes recursive s [] s where
  staged := rfl
  disk x := by simp

/-- A step that takes out the path, or finds nothing to take out. -/
theorem After.append (h : After env dirHashes recursive s done t) {after : State}
    (hstaged : after.staged = KeyedMap.insertAll t.staged (puts env dirHashes recursive path))
    (hdisk : ∀ x, after.disk.lookup x =
      open Classical in if Takes env dirHashes recursive path x then none else t.disk.lookup x) :
    After env dirHashes recursive s (done ++ [path]) after where
  staged := by
    rw [hstaged, h.staged, List.flatMap_append, KeyedMap.insertAll_append, List.flatMap_singleton]
  disk x := by
    rw [hdisk, h.disk]
    by_cases hpath : Takes env dirHashes recursive path x
    · rw [if_pos hpath, if_pos ⟨path, by simp, hpath⟩]
    · rw [if_neg hpath]
      by_cases hdone : ∃ q ∈ done, Takes env dirHashes recursive q x
      · rcases hdone with ⟨q, hq, htakes⟩
        rw [if_pos ⟨q, hq, htakes⟩, if_pos ⟨q, List.mem_append_left _ hq, htakes⟩]
      · rw [if_neg hdone, if_neg]
        rintro ⟨q, hq, htakes⟩
        rcases List.mem_append.mp hq with hq | hq
        · exact hdone ⟨q, hq, htakes⟩
        · obtain rfl := List.mem_singleton.mp hq
          exact hpath htakes

open Classical in
/-- Taking out a directory fails on a file. -/
theorem removeDirOnDisk_spec (hkind : (plan env dirHashes recursive path).2 = .ok .dir) (t : State) :
    (path ≠ [".oxen"] ∧ (∃ content mtime, t.disk.lookup path = some (.file content mtime)) ∧
        ∃ e, removeDirOnDisk t path = (t, .error e)) ∨
      ((path = [".oxen"] ∨ ∀ content mtime, t.disk.lookup path ≠ some (.file content mtime)) ∧
        ∃ disk, removeDirOnDisk t path = ({ t with disk }, .ok ()) ∧ ∀ x, disk.lookup x =
          if Takes env dirHashes recursive path x then none else t.disk.lookup x) := by
  have hnever : path = [] ∨ path = [".oxen"] → ∀ x, ¬ Takes env dirHashes recursive path x := by
    rintro (rfl | rfl) x htakes
    · exact htakes.1 rfl
    · exact htakes.2.2 ⟨hkind, rfl⟩
  unfold removeDirOnDisk
  by_cases hspared : path = [] ∨ path = [".oxen"]
  · right
    rw [if_neg (by tauto)]
    refine ⟨?_, t.disk, rfl, fun x => (if_neg (hnever hspared x)).symm⟩
    rcases hspared with rfl | rfl
    · exact .inr fun content mtime h => by simp at h
    · exact .inl rfl
  · push Not at hspared
    have htakes : ∀ x, Takes env dirHashes recursive path x ↔ path <+: x := fun x =>
      ⟨fun h => h.2.1, fun h => ⟨hspared.1, h, fun hno => hspared.2 hno.2⟩⟩
    cases hentry : t.disk.lookup path with
    | none =>
        right
        rw [if_neg (by simp [WorkingTree.pathExists, hentry])]
        refine ⟨.inr (by simp), t.disk, rfl, fun x => ?_⟩
        by_cases hx : path <+: x
        · rw [if_pos ((htakes x).mpr hx)]
          by_cases heq : path = x
          · rw [← heq, hentry]
          · exact WorkingTree.lookup_eq_none_of_isPrefix (by rw [hentry]; decide) hx heq
        · rw [if_neg fun h => hx ((htakes x).mp h)]
    | some entry =>
        rw [if_pos ⟨by simp [WorkingTree.pathExists, hentry], hspared.1, hspared.2⟩]
        cases entry with
        | file content mtime =>
            left
            refine ⟨hspared.2, ⟨content, mtime, rfl⟩, .fileError path, ?_⟩
            simp [WorkingTree.removeDirAll, hentry]
        | dir =>
            right
            refine ⟨.inr (by simp), t.disk.eraseBelow path, by simp [WorkingTree.removeDirAll, hentry],
              fun x => ?_⟩
            rw [WorkingTree.lookup_eraseBelow]
            by_cases hnil : x = []
            · rw [if_pos hnil, hnil, if_neg not_takes_nil, WorkingTree.lookup_nil]
            · rw [if_neg hnil]
              exact if_congr (htakes x).symm rfl rfl

open Classical in
/-- Taking out a file fails on a directory. -/
theorem removeFileOnDisk_spec (hkind : (plan env dirHashes recursive path).2 = .ok .file)
    (t : State) :
    (t.disk.lookup path = some .dir ∧ ∃ e, removeFileOnDisk t path = (t, .error e)) ∨
      (t.disk.lookup path ≠ some .dir ∧
        ∃ disk, removeFileOnDisk t path = ({ t with disk }, .ok ()) ∧ ∀ x, disk.lookup x =
          if Takes env dirHashes recursive path x then none else t.disk.lookup x) := by
  unfold removeFileOnDisk
  have htakes : path ≠ [] → ∀ x, Takes env dirHashes recursive path x ↔ path <+: x := fun hne x =>
    ⟨fun h => h.2.1, fun h => ⟨hne, h, fun hno => by rw [hkind] at hno; cases hno.1⟩⟩
  have hbelow : t.disk.lookup path ≠ some .dir → ∀ x, path <+: x → path ≠ x →
      t.disk.lookup x = none := fun hdir x hx hne =>
    WorkingTree.lookup_eq_none_of_isPrefix hdir hx hne
  cases hentry : t.disk.lookup path with
  | none =>
      right
      have hne : path ≠ [] := by
        rintro rfl
        simp at hentry
      rw [if_neg (by simp [WorkingTree.pathExists, hentry])]
      refine ⟨by simp, t.disk, rfl, fun x => ?_⟩
      by_cases hx : path <+: x
      · rw [if_pos ((htakes hne x).mpr hx)]
        by_cases heq : path = x
        · rw [← heq, hentry]
        · exact hbelow (by rw [hentry]; decide) x hx heq
      · rw [if_neg fun h => hx ((htakes hne x).mp h)]
  | some entry =>
      rw [if_pos (by simp [WorkingTree.pathExists, hentry])]
      cases entry with
      | dir =>
          left
          refine ⟨rfl, .fileError path, ?_⟩
          rw [WorkingTree.removeFile_eq_error (by simp [hentry])]
      | file content mtime =>
          right
          have hne : path ≠ [] := by
            rintro rfl
            simp at hentry
          rcases WorkingTree.removeFile_of_file hentry with ⟨after, hafter, hlookup⟩
          rw [hafter]
          refine ⟨by simp, after, rfl, fun x => ?_⟩
          rw [hlookup]
          by_cases hx : path <+: x
          · rw [if_pos ((htakes hne x).mpr hx)]
            by_cases heq : x = path
            · rw [if_pos heq]
            · rw [if_neg heq]
              exact hbelow (by rw [hentry]; simp) x hx (Ne.symm heq)
          · rw [if_neg fun h => hx ((htakes hne x).mp h), if_neg]
            rintro rfl
            exact hx (List.prefix_refl x)

/-! ## One path after the other -/

theorem Clashes.dir_iff (hkind : (plan env dirHashes recursive path).2 = .ok .dir) :
    Clashes env dirHashes recursive s path ↔
      path ≠ [".oxen"] ∧ ∃ content mtime, s.disk.lookup path = some (.file content mtime) := by
  unfold Clashes
  simp [hkind]

theorem Clashes.file_iff (hkind : (plan env dirHashes recursive path).2 = .ok .file) :
    Clashes env dirHashes recursive s path ↔ s.disk.lookup path = some .dir := by
  unfold Clashes
  simp [hkind]

/-- What is on disk at the path is what was there, or it was taken out. -/
theorem After.fails_iff (h : After env dirHashes recursive s done t) {kind : Kind}
    (hkind : (plan env dirHashes recursive path).2 = .ok kind) :
    Fails env dirHashes recursive s done path ↔ Clashes env dirHashes recursive t path := by
  have hclash : Fails env dirHashes recursive s done path ↔
      Clashes env dirHashes recursive s path ∧
        ∀ q ∈ done, ¬ Takes env dirHashes recursive q path := by
    unfold Fails
    rw [hkind]
    simp
  rw [hclash]
  have hlookup := h.disk path
  by_cases htaken : ∃ q ∈ done, Takes env dirHashes recursive q path
  · rw [if_pos htaken] at hlookup
    constructor
    · rintro ⟨-, hno⟩
      rcases htaken with ⟨q, hq, htakes⟩
      exact absurd htakes (hno q hq)
    · unfold Clashes
      simp [hlookup]
  · rw [if_neg htaken] at hlookup
    push Not at htaken
    rw [and_iff_left htaken]
    unfold Clashes
    rw [hlookup]

theorem describes_removePath (env : Env) (dirHashes : DirHashes) (recursive : Bool) (s : State) :
    Describes (removePath env dirHashes recursive) (After env dirHashes recursive s)
      (Fails env dirHashes recursive s) where
  ok := by
    intro done t path h hok
    have hplan : ∃ kind, (plan env dirHashes recursive path).2 = .ok kind := by
      cases hplan : (plan env dirHashes recursive path).2 with
      | error e => exact absurd (.inl ⟨e, hplan⟩) hok
      | ok kind => exact ⟨kind, rfl⟩
    rcases hplan with ⟨kind, hkind⟩
    rw [h.fails_iff hkind] at hok
    rw [removePath_eq, hkind]
    dsimp only
    cases kind with
    | dir =>
        rw [Clashes.dir_iff hkind] at hok
        rcases removeDirOnDisk_spec hkind
          { t with staged := KeyedMap.insertAll t.staged (plan env dirHashes recursive path).1 } with
          ⟨hne, hfile, -⟩ | ⟨-, disk, hrun, hdisk⟩
        · exact absurd ⟨hne, hfile⟩ hok
        · rw [onDisk, hrun]
          exact ⟨rfl, h.append rfl hdisk⟩
    | file =>
        rw [Clashes.file_iff hkind] at hok
        rcases removeFileOnDisk_spec hkind
          { t with staged := KeyedMap.insertAll t.staged (plan env dirHashes recursive path).1 } with
          ⟨hdir, -⟩ | ⟨-, disk, hrun, hdisk⟩
        · exact absurd hdir hok
        · rw [onDisk, hrun]
          exact ⟨rfl, h.append rfl hdisk⟩
  error := by
    intro done t path h hfails
    rw [removePath_eq]
    cases hkind : (plan env dirHashes recursive path).2 with
    | error e => exact ⟨e, rfl⟩
    | ok kind =>
        rw [h.fails_iff hkind] at hfails
        dsimp only
        cases kind with
        | dir =>
            rw [Clashes.dir_iff hkind] at hfails
            rcases removeDirOnDisk_spec hkind
              { t with staged := KeyedMap.insertAll t.staged (plan env dirHashes recursive path).1 }
              with ⟨-, -, e, hrun⟩ | ⟨hspared | hnot, -⟩
            · exact ⟨e, by rw [onDisk, hrun]⟩
            · exact absurd hspared hfails.1
            · rcases hfails.2 with ⟨content, mtime, hfile⟩
              exact absurd hfile (hnot content mtime)
        | file =>
            rw [Clashes.file_iff hkind] at hfails
            rcases removeFileOnDisk_spec hkind
              { t with staged := KeyedMap.insertAll t.staged (plan env dirHashes recursive path).1 }
              with ⟨-, e, hrun⟩ | ⟨hnot, -⟩
            · exact ⟨e, by rw [onDisk, hrun]⟩
            · exact absurd hfails hnot

/-- A step that fails has put its entries, and nothing else. -/
theorem removePath_of_error {e : OxenError} (h : (removePath env dirHashes recursive t path).2 = .error e) :
    (removePath env dirHashes recursive t path).1 =
      { t with staged := KeyedMap.insertAll t.staged (puts env dirHashes recursive path) } := by
  rw [removePath_eq] at h ⊢
  cases hkind : (plan env dirHashes recursive path).2 with
  | error e => rfl
  | ok kind =>
      rw [hkind] at h
      dsimp only at h ⊢
      cases kind with
      | dir =>
          rcases removeDirOnDisk_spec hkind
            { t with staged := KeyedMap.insertAll t.staged (plan env dirHashes recursive path).1 }
            with ⟨-, -, e, hrun⟩ | ⟨-, disk, hrun, -⟩
          · rw [onDisk, hrun]
            rfl
          · rw [onDisk, hrun] at h
            cases h
      | file =>
          rcases removeFileOnDisk_spec hkind
            { t with staged := KeyedMap.insertAll t.staged (plan env dirHashes recursive path).1 }
            with ⟨-, e, hrun⟩ | ⟨-, disk, hrun, -⟩
          · rw [onDisk, hrun]
            rfl
          · rw [onDisk, hrun] at h
            cases h

/-! ## The whole call -/

/-- The call goes on to remove the paths: there is a commit, and the check for modified files
finds none. -/
def Proceeds (env : Env) (s : State) (paths : List PathBuf) (commit : CommitNode) : Prop :=
  Commits.headCommitMaybe env.db env.refs = .ok (some commit) ∧
    hasModifiedFiles env (env.dirHashes commit.hash) s paths = .ok false

theorem rm_of_proceeds {paths : List PathBuf} {commit : CommitNode}
    (h : Proceeds env s paths commit) :
    rm env recursive s paths =
      let run := runAll (removePath env (env.dirHashes commit.hash) recursive) s paths
      (run.1, run.2.mapError .oxen) := by
  unfold rm
  simp only [h.1, Option.map_some, Option.getD_some, h.2]

/-- Otherwise the call fails and does nothing. -/
theorem rm_of_not_proceeds {paths : List PathBuf} (h : ∀ commit, ¬ Proceeds env s paths commit) :
    ∃ e, rm env recursive s paths = (s, .error e) := by
  unfold rm
  cases hhead : Commits.headCommitMaybe env.db env.refs with
  | error e => exact ⟨_, rfl⟩
  | ok headCommit =>
      dsimp only
      cases hcheck : hasModifiedFiles env
          ((headCommit.map fun commit => env.dirHashes commit.hash).getD ∅) s paths with
      | error e => exact ⟨_, rfl⟩
      | ok modified =>
          cases modified with
          | true => exact ⟨_, rfl⟩
          | false =>
              cases headCommit with
              | none => exact ⟨_, rfl⟩
              | some commit => exact absurd ⟨hhead, hcheck⟩ (h commit)

/-- The working tree and the staged database are as before. -/
def Unchanged (s after : State) : Prop :=
  (∀ path, after.disk.lookup path = s.disk.lookup path) ∧
    ∀ key, after.staged.lookup key = s.staged.lookup key

/-- If the call fails, it has changed nothing. -/
def AllOrNothing (env : Env) (recursive : Bool) (s : State) (paths : List PathBuf) : Prop :=
  ∀ e, (rm env recursive s paths).2 = .error e → Unchanged s (rm env recursive s paths).1

section

variable (env dirHashes recursive)

/-- None of the paths up to the failing one was on disk, and what they stage was staged. -/
structure NothingToDo (s : State) (before : List PathBuf) (path : PathBuf) : Prop where
  disk : ∀ q ∈ before, ∀ x, Takes env dirHashes recursive q x → s.disk.lookup x = none
  staged : ∀ key entry,
    (KeyedMap.insertAll ∅ ((before ++ [path]).flatMap (puts env dirHashes recursive))).lookup key =
      some entry → s.staged.lookup key = some entry

end

theorem lookup_insertAll_eq_iff (staged : StagedDb) (entries : List Put) :
    (∀ key, (KeyedMap.insertAll staged entries).lookup key = staged.lookup key) ↔
      ∀ key entry, (KeyedMap.insertAll ∅ entries : StagedDb).lookup key = some entry →
        staged.lookup key = some entry := by
  constructor
  · intro h key entry hentry
    rw [← h key, KeyedMap.lookup_insertAll, hentry, Option.some_or]
  · intro h key
    rw [KeyedMap.lookup_insertAll]
    cases hentry : (KeyedMap.insertAll ∅ entries : StagedDb).lookup key with
    | none => rw [Option.none_or]
    | some entry => rw [Option.some_or, h key entry hentry]

theorem unchanged_iff_nothingToDo {before : List PathBuf}
    (h : After env dirHashes recursive s before t) :
    Unchanged s
        { t with staged := KeyedMap.insertAll t.staged (puts env dirHashes recursive path) } ↔
      NothingToDo env dirHashes recursive s before path := by
  have hstaged : KeyedMap.insertAll t.staged (puts env dirHashes recursive path) =
      KeyedMap.insertAll s.staged ((before ++ [path]).flatMap (puts env dirHashes recursive)) := by
    rw [h.staged, List.flatMap_append, List.flatMap_singleton, KeyedMap.insertAll_append]
  unfold Unchanged
  rw [hstaged, lookup_insertAll_eq_iff]
  constructor
  · rintro ⟨hdisk, hput⟩
    refine ⟨fun q hq x htakes => ?_, hput⟩
    rw [← hdisk x]
    dsimp only
    rw [h.disk, if_pos ⟨q, hq, htakes⟩]
  · rintro ⟨hdisk, hput⟩
    refine ⟨fun x => ?_, hput⟩
    dsimp only
    rw [h.disk]
    split
    · next htaken =>
        rcases htaken with ⟨q, hq, htakes⟩
        exact (hdisk q hq x htakes).symm
    · rfl

/-- A failing call leaves everything as it was exactly when there was nothing to do before the
first path that fails. -/
theorem allOrNothing_iff (env : Env) (recursive : Bool) (s : State) (paths : List PathBuf) :
    AllOrNothing env recursive s paths ↔
      ∀ commit before path rest, Proceeds env s paths commit → paths = before ++ path :: rest →
        FirstFails (Fails env (env.dirHashes commit.hash) recursive s) before path →
          NothingToDo env (env.dirHashes commit.hash) recursive s before path := by
  constructor
  · rintro h commit before path rest hproceeds rfl hfirst
    rcases (describes_removePath env (env.dirHashes commit.hash) recursive s).run_of_firstFails
      after_nil hfirst rest with ⟨t, e, ht, he, hrun⟩
    have hrm := @rm_of_proceeds env recursive s _ commit hproceeds
    rw [hrun] at hrm
    have hunchanged := h (.oxen e) (by rw [hrm]; rfl)
    rw [hrm, removePath_of_error he] at hunchanged
    exact (unchanged_iff_nothingToDo ht).mp hunchanged
  · intro h e he
    by_cases hproceeds : ∃ commit, Proceeds env s paths commit
    · rcases hproceeds with ⟨commit, hproceeds⟩
      have hrm := @rm_of_proceeds env recursive s _ commit hproceeds
      rcases (describes_removePath env (env.dirHashes commit.hash) recursive s).run after_nil paths with
        ⟨hok, -⟩ | ⟨before, path, rest, t, e', hpaths, hfirst, ht, he', hrun⟩
      · rw [hrm] at he
        dsimp only at he
        rw [hok] at he
        cases he
      · rw [hrm, hrun, removePath_of_error he']
        exact (unchanged_iff_nothingToDo ht).mpr (h commit before path rest hproceeds hpaths hfirst)
    · push Not at hproceeds
      rcases @rm_of_not_proceeds env recursive s paths hproceeds with ⟨e', hrm⟩
      rw [hrm]
      exact ⟨fun _ => rfl, fun _ => rfl⟩

namespace RemoveExample

open Oxen.Example

def root : List MerkleTreeNode :=
  [dir [] 0x10 [file "a" [1] 1, dir ["d"] 0x20 [dir ["sub"] 0x30 [file "x" [2] 2]]]]

def nodes : NodeStore :=
  .ofTrees [.mk (.commit { hash := 0x1 }) root]

/-- HEAD has the files `a` and `d/sub/x`. -/
def committed : Env where
  toLocalRepository := repo
  db := nodes
  dirHashes _ := KeyedMap.insertAll ∅ [([], 0x10), (["d"], 0x20), (["d", "sub"], 0x30)]
  refs := { headFile := some "main", branches := AList.insert "main" "1" ∅ }
  gitignore _ _ := false
  fuel := 10

def noFiles : WorkingTree where
  entries := ∅
  parent_isDir := by simp

/-- The file `a` is as committed, `d/sub/x` was edited. -/
def disk : WorkingTree :=
  (((noFiles.put ["a"] (.file [1] 1) (by decide)).put ["d"] .dir (by decide)).put
    ["d", "sub"] .dir (by decide)).put ["d", "sub", "x"] (.file [9, 9] 9) (by decide)

def state : State := { staged := ∅, disk }

end RemoveExample

open RemoveExample in
/-- The first path is removed before the second one is refused. -/
theorem not_allOrNothing :
    ¬ ∀ env recursive s paths, AllOrNothing env recursive s paths := by
  intro h
  have hunchanged := h committed false state [["a"], ["missing"]]
    (.oxen (mustBeCommitted ["missing"])) (by decide)
  exact absurd (hunchanged.1 ["a"]) (by decide)

end Remove

end Oxen
