import Oxen.Lib.Runs
import Oxen.Model.WorkspaceNames

/-! Names and ids of workspaces, and the index of names, over runs of calls. -/

namespace Oxen

namespace WorkspaceNames

open Runs

/-- The id that a workspace is loaded with. -/
def WorkspaceConfig.id (config : WorkspaceConfig) (workspaceDir : String) : String :=
  config.workspaceId.getD workspaceDir

variable {env : Env} {repo repo' : Repo}

/-- By name the index finds what the scan finds, names are unique, and a name is not taken
for an id. -/
structure NamesResolve (env : Env) (repo : Repo) : Prop where
  getByName_eq_scan : ∀ name,
    (getByName env repo name).map Prod.fst = scanByName env repo name
  unique : ∀ dir dir' config config' name, repo.workspaces.lookup dir = some config →
    repo.workspaces.lookup dir' = some config' → config.workspaceName = some name →
    config'.workspaceName = some name → dir = dir'
  get_named : ∀ dir config name, repo.workspaces.lookup dir = some config →
    config.workspaceName = some name →
    ∃ workspace, (get env repo name).map Prod.fst = .ok (some workspace) ∧
      workspace.workspaceRepo = dir ∧ workspace.name = some name
  not_id : ∀ dir dir' config config', repo.workspaces.lookup dir = some config →
    repo.workspaces.lookup dir' = some config' →
    config.workspaceName = some (config'.id dir') → dir = dir'

/-- Workspaces that names and ids tell apart, each in the directory of its id and at a commit
that exists. -/
structure Separate (env : Env) (repo : Repo) : Prop where
  stored : ∀ dir config id, repo.workspaces.lookup dir = some config →
    config.workspaceId = some id → dir = env.hashStrSha256 id
  commits : ∀ dir config, repo.workspaces.lookup dir = some config →
    env.commitExists config.workspaceCommitId
  unique : ∀ dir dir' config config' name, repo.workspaces.lookup dir = some config →
    repo.workspaces.lookup dir' = some config' → config.workspaceName = some name →
    config'.workspaceName = some name → dir = dir'
  not_dir : ∀ dir config name, repo.workspaces.lookup dir = some config →
    config.workspaceName = some name → env.hashStrSha256 name ∈ repo.workspaces →
    env.hashStrSha256 name = dir
  not_id : ∀ dir dir' config config', repo.workspaces.lookup dir = some config →
    repo.workspaces.lookup dir' = some config' →
    config.workspaceName = some (config'.id dir') → dir = dir'

/-- The configs with a name have an id. -/
def NamedHaveIds (repo : Repo) : Prop :=
  ∀ dir config, repo.workspaces.lookup dir = some config → config.workspaceName.isSome →
    config.workspaceId.isSome

/-- When a call keeps names and ids apart. -/
def Call.Meets (env : Env) (repo : Repo) : Call → Prop
  | .create commit workspaceId _ => env.commitExists commit ∧
      ∀ dir config, repo.workspaces.lookup dir = some config →
        config.workspaceName ≠ some workspaceId
  | .createWithName commit workspaceId workspaceName _ => env.commitExists commit ∧
      (∀ dir config, repo.workspaces.lookup dir = some config →
        config.workspaceName ≠ some workspaceId) ∧
      ∀ name ∈ workspaceName,
        (∀ dir config, repo.workspaces.lookup dir = some config → config.workspaceId = none →
          dir ≠ env.hashStrSha256 name ∧ dir ≠ name) ∧
        (repo.nameIndex = none → NamedHaveIds repo)
  | .updateCommit _ newCommitId => env.commitExists newCommitId
  | .delete workspace => ∀ config,
      repo.workspaces.lookup (env.hashStrSha256 workspace.id) = some config →
        config.workspaceName = workspace.name
  | .clear => True

/-- A call, which keeps names and ids apart if it succeeds. -/
def Step (env : Env) (call : Call) (repo repo' : Repo) : Prop :=
  repo' = call.next env repo ∧ (repo' ≠ repo → call.Meets env repo)

/-! ## Loading -/

def WorkspaceConfig.load (config : WorkspaceConfig) (workspaceDir : String) : Workspace where
  id := config.id workspaceDir
  name := config.workspaceName
  commit := config.workspaceCommitId
  isEditable := config.isEditable
  workspaceRepo := workspaceDir

@[simp] theorem WorkspaceConfig.load_name (config : WorkspaceConfig) (workspaceDir : String) :
    (config.load workspaceDir).name = config.workspaceName := rfl

theorem mem_workspaceDirs {dir : String} : dir ∈ workspaceDirs repo ↔ dir ∈ repo.workspaces := by
  rw [workspaceDirs, List.mem_map]
  constructor
  · rintro ⟨⟨dir', config⟩, hmem, rfl⟩
    exact AList.lookup_isSome.mp (by simp [KeyedMap.mem_toList.mp hmem])
  · intro h
    obtain ⟨config, hlookup⟩ := Option.isSome_iff_exists.mp (AList.lookup_isSome.mpr h)
    exact ⟨(dir, config), KeyedMap.mem_toList.mpr hlookup, rfl⟩

namespace Separate

theorem getByDir_eq (h : Separate env repo) (dir : String) :
    getByDir env repo dir = .ok ((repo.workspaces.lookup dir).map (·.load dir)) := by
  unfold getByDir
  cases hlookup : repo.workspaces.lookup dir with
  | none => rfl
  | some config =>
      simp only [h.commits dir config hlookup, if_true]
      rfl

theorem scanDirs_eq_none (h : Separate env repo) {name : String} {dirs : List String}
    (hnone : ∀ dir config, repo.workspaces.lookup dir = some config →
      config.workspaceName ≠ some name) :
    scanDirs env repo name dirs = .ok none := by
  induction dirs with
  | nil => rfl
  | cons dir dirs ih =>
      rw [scanDirs, h.getByDir_eq]
      cases hlookup : repo.workspaces.lookup dir with
      | none => exact ih
      | some config =>
          rw [Option.map_some]
          dsimp only
          rw [WorkspaceConfig.load_name, if_neg (hnone dir config hlookup)]
          exact ih

theorem scanDirs_eq_some (h : Separate env repo) {name dir : String} {config : WorkspaceConfig}
    (hlookup : repo.workspaces.lookup dir = some config)
    (hname : config.workspaceName = some name) {dirs : List String} (hmem : dir ∈ dirs) :
    scanDirs env repo name dirs = .ok (some (config.load dir)) := by
  induction dirs with
  | nil => cases hmem
  | cons dir' dirs ih =>
      rw [scanDirs, h.getByDir_eq]
      cases hlookup' : repo.workspaces.lookup dir' with
      | none =>
          have hne : dir ≠ dir' := by
            rintro rfl
            simp [hlookup] at hlookup'
          exact ih (List.mem_of_ne_of_mem hne hmem)
      | some config' =>
          rw [Option.map_some]
          dsimp only
          by_cases hname' : config'.workspaceName = some name
          · obtain rfl := h.unique dir dir' config config' name hlookup hlookup' hname hname'
            obtain rfl : config = config' := by simpa [hlookup] using hlookup'
            rw [WorkspaceConfig.load_name, if_pos hname]
          · rw [WorkspaceConfig.load_name, if_neg hname']
            apply ih
            rcases List.mem_cons.mp hmem with rfl | hmem
            · obtain rfl : config = config' := by simpa [hlookup] using hlookup'
              exact absurd hname hname'
            · exact hmem

theorem scanByName_of_named (h : Separate env repo) {name dir : String} {config : WorkspaceConfig}
    (hlookup : repo.workspaces.lookup dir = some config)
    (hname : config.workspaceName = some name) :
    scanByName env repo name = .ok (some (config.load dir)) := by
  apply h.scanDirs_eq_some hlookup hname
  exact mem_workspaceDirs.mpr (AList.lookup_isSome.mp (by simp [hlookup]))

end Separate

/-! ## The index -/

/-- The index has the names and ids of the configs on disk. -/
structure Consistent (env : Env) (repo : Repo) : Prop extends Separate env repo where
  named : repo.nameIndex.isSome → NamedHaveIds repo
  indexed : ∀ idx, repo.nameIndex = some idx → ∀ name id, idx.lookup name = some id ↔
    ∃ config, repo.workspaces.lookup (env.hashStrSha256 id) = some config ∧
      config.workspaceName = some name ∧ config.workspaceId = some id

namespace Consistent

theorem lookup_of_named (h : Consistent env repo) {idx : KeyedMap.Map String String}
    (hindex : repo.nameIndex = some idx) {name dir : String} {config : WorkspaceConfig}
    (hlookup : repo.workspaces.lookup dir = some config)
    (hname : config.workspaceName = some name) :
    ∃ id, idx.lookup name = some id ∧ dir = env.hashStrSha256 id := by
  obtain ⟨id, hid⟩ := Option.isSome_iff_exists.mp
    (h.named (by simp [hindex]) dir config hlookup (by simp [hname]))
  have hdir := h.stored dir config id hlookup hid
  refine ⟨id, (h.indexed idx hindex name id).mpr ⟨config, ?_, hname, hid⟩, hdir⟩
  rw [← hdir, hlookup]

theorem getByName_eq_scan (h : Consistent env repo) (name : String) :
    (getByName env repo name).map Prod.fst = scanByName env repo name := by
  unfold getByName
  cases hindex : repo.nameIndex with
  | none =>
      simp only
      cases scanByName env repo name <;> rfl
  | some idx =>
      simp only
      cases hlookup : idx.lookup name with
      | none =>
          have hnone : ∀ dir config, repo.workspaces.lookup dir = some config →
              config.workspaceName ≠ some name := by
            intro dir config hconfig hname
            obtain ⟨id, hid, -⟩ := h.lookup_of_named hindex hconfig hname
            simp [hlookup] at hid
          exact (h.scanDirs_eq_none hnone).symm
      | some id =>
          obtain ⟨config, hconfig, hname, -⟩ := (h.indexed idx hindex name id).mp hlookup
          simp only [h.getByDir_eq, hconfig, Option.map_some]
          exact (h.scanByName_of_named hconfig hname).symm

theorem namesResolve (h : Consistent env repo) : NamesResolve env repo := by
  refine ⟨h.getByName_eq_scan, h.unique, ?_, h.not_id⟩
  intro dir config name hlookup hname
  refine ⟨config.load dir, ?_, rfl, hname⟩
  unfold get
  by_cases hmem : env.hashStrSha256 name ∈ repo.workspaces
  · rw [if_pos hmem, h.not_dir dir config name hlookup hname hmem, h.getByDir_eq, hlookup]
    rfl
  · rw [if_neg hmem, h.getByName_eq_scan, h.scanByName_of_named hlookup hname]

end Consistent

/-! ## Creating a workspace -/

theorem mem_of_listDirs {dir : String} {workspace : Workspace}
    (hload : getByDir env repo dir = .ok (some workspace)) {dirs : List String}
    {workspaces : List Workspace} (hlist : listDirs env repo dirs = .ok workspaces)
    (hmem : dir ∈ dirs) : workspace ∈ workspaces := by
  induction dirs generalizing workspaces with
  | nil => cases hmem
  | cons dir' dirs ih =>
      rw [listDirs] at hlist
      rcases List.mem_cons.mp hmem with rfl | hmem
      · rw [hload] at hlist
        obtain ⟨rest, -, hrest⟩ := bind_eq_ok.mp hlist
        cases hrest
        exact List.mem_cons_self
      · cases hdir : getByDir env repo dir' with
        | error e => simp [hdir] at hlist
        | ok loaded =>
            rw [hdir] at hlist
            cases loaded with
            | none => exact ih hlist hmem
            | some workspace' =>
                obtain ⟨rest, hrest, hcons⟩ := bind_eq_ok.mp hlist
                cases hcons
                exact List.mem_cons_of_mem _ (ih hrest hmem)

theorem forM_eq_ok {α ε : Type} {f : α → Except ε Unit} {xs : List α} {x : α}
    (h : xs.forM f = .ok ()) (hx : x ∈ xs) : f x = .ok () := by
  induction xs with
  | nil => cases hx
  | cons y xs ih =>
      obtain ⟨⟨⟩, hy, hrest⟩ := bind_eq_ok.mp h
      rcases List.mem_cons.mp hx with rfl | hx
      · exact hy
      · exact ih hrest hx

theorem checkWorkspace_eq_ok {commit name : String} {isEditable : Bool} {workspace : Workspace}
    (h : checkWorkspace commit (some name) isEditable workspace = .ok ()) :
    workspace.name ≠ some name ∧ workspace.id ≠ name := by
  have hname : checkExistingWorkspaceName workspace name = .ok () := by
    cases isEditable with
    | true => exact h
    | false =>
        obtain ⟨_, -, h⟩ := bind_eq_ok.mp h
        exact h
  unfold checkExistingWorkspaceName at hname
  split at hname
  · cases hname
  · next hnot =>
      rw [not_or] at hnot
      exact ⟨hnot.1, Ne.symm hnot.2⟩

theorem Consistent.name_free (h : Consistent env repo) {commit name : String} {isEditable : Bool}
    (hvalid : validateCreateConstraints env repo commit (some name) isEditable = .ok ())
    {dir : String} {config : WorkspaceConfig} (hlookup : repo.workspaces.lookup dir = some config) :
    config.workspaceName ≠ some name ∧ ∀ id, config.workspaceId = some id → id ≠ name := by
  -- Both paths of the check, for the loaded workspaces and for the index.
  have hslow : (list env repo >>= fun workspaces =>
      workspaces.forM (checkWorkspace commit (some name) isEditable)) = .ok () →
      config.workspaceName ≠ some name ∧ ∀ id, config.workspaceId = some id → id ≠ name := by
    intro hslow
    obtain ⟨workspaces, hlist, hforM⟩ := bind_eq_ok.mp hslow
    have hload : getByDir env repo dir = .ok (some (config.load dir)) := by
      rw [h.getByDir_eq, hlookup, Option.map_some]
    have hdir : dir ∈ workspaceDirs repo :=
      mem_workspaceDirs.mpr (AList.lookup_isSome.mp (by simp [hlookup]))
    obtain ⟨hname, hid⟩ := checkWorkspace_eq_ok (forM_eq_ok hforM (mem_of_listDirs hload hlist hdir))
    refine ⟨hname, ?_⟩
    rintro id hsome rfl
    apply hid
    change config.workspaceId.getD dir = id
    rw [hsome, Option.getD_some]
  unfold validateCreateConstraints at hvalid
  cases hindex : repo.nameIndex with
  | none =>
      rw [hindex] at hvalid
      exact hslow hvalid
  | some idx =>
      rw [hindex] at hvalid
      cases isEditable with
      | false => exact hslow hvalid
      | true =>
          dsimp only at hvalid
          split at hvalid
          · cases hvalid
          · next hidx =>
              split at hvalid
              · cases hvalid
              · next hdir =>
                  constructor
                  · intro hname
                    obtain ⟨id, hid, -⟩ := h.lookup_of_named hindex hlookup hname
                    exact hidx (AList.lookup_isSome.mp (by simp [hid]))
                  · rintro id hsome rfl
                    apply hdir
                    rw [← h.stored dir config id hlookup hsome]
                    exact AList.lookup_isSome.mp (by simp [hlookup])

/-- The config that a call creates. -/
def newConfig (commit workspaceId : String) (workspaceName : Option String) (isEditable : Bool) :
    WorkspaceConfig where
  workspaceCommitId := commit
  isEditable := isEditable
  workspaceName := workspaceName
  workspaceId := some workspaceId

theorem createOnDisk_eq_ok {commit workspaceId : String} {workspaceName : Option String}
    {isEditable : Bool}
    (h : createOnDisk env repo commit workspaceId workspaceName isEditable = .ok repo') :
    env.hashStrSha256 workspaceId ∉ repo.workspaces ∧
      (∀ name ∈ workspaceName,
        validateCreateConstraints env repo commit workspaceName isEditable = .ok ()) ∧
      repo' = ⟨repo.workspaces.insert (env.hashStrSha256 workspaceId)
        (newConfig commit workspaceId workspaceName isEditable), repo.nameIndex⟩ := by
  unfold createOnDisk at h
  by_cases hdir : env.hashStrSha256 workspaceId ∈ repo.workspaces
  · simp only [hdir, if_true] at h
    cases h
  · simp only [hdir, if_false] at h
    by_cases hcheck : workspaceName.isSome ∨ ¬ isEditable
    · simp only [hcheck, if_true] at h
      obtain ⟨⟨⟩, hvalid, h⟩ := bind_eq_ok.mp h
      cases h
      exact ⟨hdir, fun _ _ => hvalid, rfl⟩
    · simp only [hcheck, if_false] at h
      cases h
      refine ⟨hdir, ?_, rfl⟩
      intro name hname
      exact absurd (.inl (by simp [Option.mem_def.mp hname])) hcheck

/-- A new workspace whose id is no name and whose name is no id. -/
theorem Separate.insert (h : Separate env repo) (hinjective : Function.Injective env.hashStrSha256)
    {commit workspaceId : String} {workspaceName : Option String} {isEditable : Bool}
    (hcommit : env.commitExists commit)
    (hid : ∀ dir config, repo.workspaces.lookup dir = some config →
      config.workspaceName ≠ some workspaceId)
    (hname : ∀ name ∈ workspaceName, ∀ dir config, repo.workspaces.lookup dir = some config →
      config.workspaceName ≠ some name ∧ config.id dir ≠ name ∧
        dir ≠ env.hashStrSha256 name)
    (nameIndex : Option (KeyedMap.Map String String)) :
    Separate env ⟨repo.workspaces.insert (env.hashStrSha256 workspaceId)
      (newConfig commit workspaceId workspaceName isEditable), nameIndex⟩ := by
  refine ⟨?_, ?_, ?_, ?_, ?_⟩
  · intro dir config id hlookup hsome
    rcases KeyedMap.lookup_insert_eq_some.mp hlookup with ⟨rfl, rfl⟩ | ⟨-, hold⟩
    · cases hsome
      rfl
    · exact h.stored dir config id hold hsome
  · intro dir config hlookup
    rcases KeyedMap.lookup_insert_eq_some.mp hlookup with ⟨rfl, rfl⟩ | ⟨-, hold⟩
    · exact hcommit
    · exact h.commits dir config hold
  · intro dir dir' config config' name hlookup hlookup' hnamed hnamed'
    rcases KeyedMap.lookup_insert_eq_some.mp hlookup with ⟨rfl, rfl⟩ | ⟨-, hold⟩ <;>
      rcases KeyedMap.lookup_insert_eq_some.mp hlookup' with ⟨rfl, rfl⟩ | ⟨-, hold'⟩
    · rfl
    · exact absurd hnamed' (hname name hnamed dir' config' hold').1
    · exact absurd hnamed (hname name hnamed' dir config hold).1
    · exact h.unique dir dir' config config' name hold hold' hnamed hnamed'
  · intro dir config name hlookup hnamed hmem
    rw [AList.mem_insert] at hmem
    rcases KeyedMap.lookup_insert_eq_some.mp hlookup with ⟨rfl, rfl⟩ | ⟨-, hold⟩
    · rcases hmem with heq | hmem
      · exact heq
      · obtain ⟨config', hconfig'⟩ := Option.isSome_iff_exists.mp (AList.lookup_isSome.mpr hmem)
        exact absurd rfl (hname name hnamed _ config' hconfig').2.2
    · rcases hmem with heq | hmem
      · rw [hinjective heq] at hnamed
        exact absurd hnamed (hid dir config hold)
      · exact h.not_dir dir config name hold hnamed hmem
  · intro dir dir' config config' hlookup hlookup' hnamed
    rcases KeyedMap.lookup_insert_eq_some.mp hlookup with ⟨rfl, rfl⟩ | ⟨-, hold⟩ <;>
      rcases KeyedMap.lookup_insert_eq_some.mp hlookup' with ⟨rfl, rfl⟩ | ⟨-, hold'⟩
    · rfl
    · exact absurd rfl (hname _ hnamed dir' config' hold').2.1
    · exact absurd hnamed (hid dir config hold)
    · exact h.not_id dir dir' config config' hold hold' hnamed

/-! ## The rebuilt index -/

def WorkspaceConfig.nameAndId (config : WorkspaceConfig) : List (String × String) :=
  match config.workspaceName, config.workspaceId with
  | some name, some id => [(name, id)]
  | _, _ => []

theorem foldl_indexConfig (configs : List WorkspaceConfig) (idx : KeyedMap.Map String String) :
    configs.foldl indexConfig idx =
      KeyedMap.insertAll idx (configs.flatMap WorkspaceConfig.nameAndId) := by
  induction configs generalizing idx with
  | nil => rfl
  | cons config configs ih =>
      rw [List.foldl_cons, ih, List.flatMap_cons, KeyedMap.insertAll_append]
      congr 1
      unfold indexConfig WorkspaceConfig.nameAndId
      cases config.workspaceName <;> cases config.workspaceId <;> rfl

theorem mem_nameAndId {config : WorkspaceConfig} {name id : String} :
    (name, id) ∈ config.nameAndId ↔
      config.workspaceName = some name ∧ config.workspaceId = some id := by
  unfold WorkspaceConfig.nameAndId
  cases config.workspaceName <;> cases config.workspaceId <;> simp [eq_comm]

theorem Separate.lookup_rebuildFromDisk (h : Separate env repo) {name id : String} :
    (rebuildFromDisk repo).lookup name = some id ↔
      ∃ config, repo.workspaces.lookup (env.hashStrSha256 id) = some config ∧
        config.workspaceName = some name ∧ config.workspaceId = some id := by
  have hmem : ∀ id, (name, id) ∈ ((KeyedMap.toList repo.workspaces).map Prod.snd).flatMap
      WorkspaceConfig.nameAndId ↔
      ∃ config, repo.workspaces.lookup (env.hashStrSha256 id) = some config ∧
        config.workspaceName = some name ∧ config.workspaceId = some id := by
    intro id
    rw [List.mem_flatMap]
    constructor
    · rintro ⟨config, hconfig, hpair⟩
      obtain ⟨⟨dir, config⟩, hentry, rfl⟩ := List.mem_map.mp hconfig
      obtain ⟨hname, hid⟩ := mem_nameAndId.mp hpair
      have hlookup := KeyedMap.mem_toList.mp hentry
      refine ⟨config, ?_, hname, hid⟩
      rw [← h.stored dir config id hlookup hid, hlookup]
    · rintro ⟨config, hlookup, hname, hid⟩
      exact ⟨config, List.mem_map_of_mem (KeyedMap.mem_toList.mpr hlookup),
        mem_nameAndId.mpr ⟨hname, hid⟩⟩
  rw [rebuildFromDisk, foldl_indexConfig, KeyedMap.lookup_insertAll_empty_iff_of_functional, hmem]
  intro id' hpair hpair'
  obtain ⟨config, hlookup, hname, hid⟩ := (hmem id).mp hpair
  obtain ⟨config', hlookup', hname', hid'⟩ := (hmem id').mp hpair'
  have hdir := h.unique _ _ config config' name hlookup hlookup' hname hname'
  rw [← hdir, hlookup] at hlookup'
  cases hlookup'
  simpa [hid] using hid'.symm

/-! ## Steps -/

theorem consistent_create (h : Consistent env repo)
    (hinjective : Function.Injective env.hashStrSha256) {commit workspaceId : String}
    {isEditable : Bool} (hmeets : Call.Meets env repo (.create commit workspaceId isEditable))
    (hrun : create env repo commit workspaceId isEditable = .ok repo') :
    Consistent env repo' := by
  obtain ⟨hcommit, hid⟩ := hmeets
  obtain ⟨hnew, -, rfl⟩ := createOnDisk_eq_ok hrun
  refine ⟨h.insert hinjective hcommit hid (by simp) _, ?_, ?_⟩
  · intro hindex dir config hlookup hnamed
    rcases KeyedMap.lookup_insert_eq_some.mp hlookup with ⟨-, rfl⟩ | ⟨-, hold⟩
    · rfl
    · exact h.named hindex dir config hold hnamed
  · intro idx hindex name id
    rw [h.indexed idx hindex]
    apply exists_congr
    intro config
    rw [KeyedMap.lookup_insert_eq_some]
    constructor
    · rintro ⟨hlookup, hnamed⟩
      refine ⟨.inr ⟨?_, hlookup⟩, hnamed⟩
      rintro heq
      rw [heq] at hlookup
      exact hnew (AList.lookup_isSome.mp (by simp [hlookup]))
    · rintro ⟨⟨-, rfl⟩ | ⟨-, hlookup⟩, hnamed⟩
      · cases hnamed.1
      · exact ⟨hlookup, hnamed⟩

theorem consistent_createWithName_some (h : Consistent env repo)
    (hinjective : Function.Injective env.hashStrSha256) {commit workspaceId name : String}
    {isEditable : Bool}
    (hmeets : Call.Meets env repo (.createWithName commit workspaceId (some name) isEditable))
    (hrun : createWithName env repo commit workspaceId (some name) isEditable = .ok repo') :
    Consistent env repo' := by
  obtain ⟨hcommit, hid, hlegacy⟩ := hmeets
  obtain ⟨hlegacy, hindexable⟩ := hlegacy name rfl
  obtain ⟨created, hcreated, hrun⟩ := bind_eq_ok.mp hrun
  cases hrun
  obtain ⟨hnew, hvalid, rfl⟩ := createOnDisk_eq_ok hcreated
  have hfree := fun dir config hlookup =>
    @Consistent.name_free _ _ h _ _ _ (hvalid name rfl) dir config hlookup
  have hname : ∀ n ∈ some name, ∀ dir config, repo.workspaces.lookup dir = some config →
      config.workspaceName ≠ some n ∧ config.id dir ≠ n ∧ dir ≠ env.hashStrSha256 n := by
    rintro n hn dir config hlookup
    cases hn
    obtain ⟨hunused, hids⟩ := hfree dir config hlookup
    refine ⟨hunused, ?_⟩
    unfold WorkspaceConfig.id
    cases hsome : config.workspaceId with
    | none => exact (hlegacy dir config hlookup hsome).symm
    | some id =>
        refine ⟨hids id hsome, ?_⟩
        rintro rfl
        exact hids id hsome (hinjective (h.stored _ config id hlookup hsome)).symm
  have hseparate : ∀ nameIndex, Separate env
      ⟨repo.workspaces.insert (env.hashStrSha256 workspaceId)
        (newConfig commit workspaceId (some name) isEditable), nameIndex⟩ :=
    h.insert hinjective hcommit hid hname
  refine ⟨hseparate _, ?_, ?_⟩
  · intro _ dir config hlookup hnamed
    rcases KeyedMap.lookup_insert_eq_some.mp hlookup with ⟨-, rfl⟩ | ⟨-, hold⟩
    · rfl
    · cases hindex : repo.nameIndex with
      | none => exact hindexable hindex dir config hold hnamed
      | some idx => exact h.named (by simp [hindex]) dir config hold hnamed
  · intro idx hindex name' id
    cases hindex
    rw [KeyedMap.lookup_insert_eq_some]
    by_cases hn : name' = name
    · subst hn
      simp only [ne_eq, not_true_eq_false, false_and, or_false, true_and]
      constructor
      · rintro rfl
        exact ⟨_, AList.lookup_insert _, rfl, rfl⟩
      · rintro ⟨config, hlookup, hnamed, -⟩
        rcases KeyedMap.lookup_insert_eq_some.mp hlookup with ⟨heq, -⟩ | ⟨-, hold⟩
        · exact hinjective heq
        · exact absurd hnamed (hfree _ config hold).1
    · simp only [hn, ne_eq, not_false_eq_true, false_and, false_or, true_and]
      unfold ensureNameIndex
      cases hold : repo.nameIndex with
      | none => exact (hseparate none).lookup_rebuildFromDisk
      | some idx =>
          rw [Option.getD_some, h.indexed idx hold]
          apply exists_congr
          intro config
          rw [KeyedMap.lookup_insert_eq_some]
          constructor
          · rintro ⟨hlookup, hnamed⟩
            refine ⟨.inr ⟨?_, hlookup⟩, hnamed⟩
            rintro heq
            rw [heq] at hlookup
            exact hnew (AList.lookup_isSome.mp (by simp [hlookup]))
          · rintro ⟨⟨-, rfl⟩ | ⟨-, hlookup⟩, hnamed⟩
            · exact absurd (Option.some.inj hnamed.1).symm hn
            · exact ⟨hlookup, hnamed⟩

theorem consistent_createWithName (h : Consistent env repo)
    (hinjective : Function.Injective env.hashStrSha256) {commit workspaceId : String}
    {workspaceName : Option String} {isEditable : Bool}
    (hmeets : Call.Meets env repo (.createWithName commit workspaceId workspaceName isEditable))
    (hrun : createWithName env repo commit workspaceId workspaceName isEditable = .ok repo') :
    Consistent env repo' := by
  cases workspaceName with
  | some name => exact consistent_createWithName_some h hinjective hmeets hrun
  | none =>
      obtain ⟨created, hcreated, hrun⟩ := bind_eq_ok.mp hrun
      cases hrun
      have hcreate : Call.Meets env repo (.create commit workspaceId isEditable) :=
        ⟨hmeets.1, hmeets.2.1⟩
      exact consistent_create h hinjective hcreate hcreated

/-- A config with the same name and id in the place of another. -/
theorem consistent_updateCommit (h : Consistent env repo) {workspace : Workspace}
    {newCommitId : String} (hmeets : Call.Meets env repo (.updateCommit workspace newCommitId))
    (hrun : updateCommit env repo workspace newCommitId = .ok repo') : Consistent env repo' := by
  unfold updateCommit at hrun
  cases hconfig : repo.workspaces.lookup (env.hashStrSha256 workspace.id) with
  | none => simp [hconfig] at hrun
  | some config =>
      rw [hconfig] at hrun
      cases hrun
      have hlookup_of : ∀ dir config', (repo.workspaces.insert (env.hashStrSha256 workspace.id)
          { config with workspaceCommitId := newCommitId }).lookup dir = some config' →
          ∃ old, repo.workspaces.lookup dir = some old ∧
            config'.workspaceName = old.workspaceName ∧ config'.workspaceId = old.workspaceId ∧
            env.commitExists config'.workspaceCommitId := by
        intro dir config' hlookup
        rcases KeyedMap.lookup_insert_eq_some.mp hlookup with ⟨rfl, rfl⟩ | ⟨-, hold⟩
        · exact ⟨config, hconfig, rfl, rfl, hmeets⟩
        · exact ⟨config', hold, rfl, rfl, h.commits dir config' hold⟩
      have hmem : ∀ dir, dir ∈ repo.workspaces.insert (env.hashStrSha256 workspace.id)
          { config with workspaceCommitId := newCommitId } ↔ dir ∈ repo.workspaces := by
        intro dir
        rw [AList.mem_insert, or_iff_right_iff_imp]
        rintro rfl
        exact AList.lookup_isSome.mp (by simp [hconfig])
      refine ⟨⟨?_, ?_, ?_, ?_, ?_⟩, ?_, ?_⟩
      · intro dir config' id hlookup hid
        obtain ⟨old, hold, -, hids, -⟩ := hlookup_of dir config' hlookup
        exact h.stored dir old id hold (hids ▸ hid)
      · intro dir config' hlookup
        exact (hlookup_of dir config' hlookup).choose_spec.2.2.2
      · intro dir dir' config₁ config₂ name hlookup₁ hlookup₂ hname₁ hname₂
        obtain ⟨old₁, hold₁, hnames₁, -⟩ := hlookup_of dir config₁ hlookup₁
        obtain ⟨old₂, hold₂, hnames₂, -⟩ := hlookup_of dir' config₂ hlookup₂
        exact h.unique dir dir' old₁ old₂ name hold₁ hold₂ (hnames₁ ▸ hname₁) (hnames₂ ▸ hname₂)
      · intro dir config' name hlookup hname hdir
        obtain ⟨old, hold, hnames, -⟩ := hlookup_of dir config' hlookup
        exact h.not_dir dir old name hold (hnames ▸ hname) ((hmem _).mp hdir)
      · intro dir dir' config₁ config₂ hlookup₁ hlookup₂ hname
        obtain ⟨old₁, hold₁, hnames₁, -⟩ := hlookup_of dir config₁ hlookup₁
        obtain ⟨old₂, hold₂, -, hids₂, -⟩ := hlookup_of dir' config₂ hlookup₂
        apply h.not_id dir dir' old₁ old₂ hold₁ hold₂
        rw [← hnames₁, hname, WorkspaceConfig.id, WorkspaceConfig.id, hids₂]
      · intro hindex dir config' hlookup hnamed
        obtain ⟨old, hold, hnames, hids, -⟩ := hlookup_of dir config' hlookup
        rw [hids]
        exact h.named hindex dir old hold (hnames ▸ hnamed)
      · intro idx hindex name id
        rw [h.indexed idx hindex]
        constructor
        · rintro ⟨old, hold, hname, hid⟩
          by_cases heq : env.hashStrSha256 id = env.hashStrSha256 workspace.id
          · rw [heq, hconfig] at hold
            cases hold
            exact ⟨{ config with workspaceCommitId := newCommitId },
              by rw [heq, AList.lookup_insert], hname, hid⟩
          · exact ⟨old, by rwa [AList.lookup_insert_ne heq], hname, hid⟩
        · rintro ⟨config', hlookup, hname, hid⟩
          obtain ⟨old, hold, hnames, hids, -⟩ := hlookup_of _ config' hlookup
          exact ⟨old, hold, hnames ▸ hname, hids ▸ hid⟩

theorem consistent_delete (h : Consistent env repo) {workspace : Workspace}
    (hmeets : Call.Meets env repo (.delete workspace))
    (hrun : delete env repo workspace = .ok repo') : Consistent env repo' := by
  unfold delete at hrun
  split at hrun
  · next hmem =>
      obtain ⟨gone, hgone⟩ := Option.isSome_iff_exists.mp (AList.lookup_isSome.mpr hmem)
      have hname := hmeets gone hgone
      have hlookup_of : ∀ dir config,
          (repo.workspaces.erase (env.hashStrSha256 workspace.id)).lookup dir = some config →
          dir ≠ env.hashStrSha256 workspace.id ∧ repo.workspaces.lookup dir = some config :=
        fun dir config hlookup => KeyedMap.lookup_erase_eq_some.mp hlookup
      cases hrun
      refine ⟨⟨?_, ?_, ?_, ?_, ?_⟩, ?_, ?_⟩
      · intro dir config id hlookup hid
        exact h.stored dir config id (hlookup_of dir config hlookup).2 hid
      · intro dir config hlookup
        exact h.commits dir config (hlookup_of dir config hlookup).2
      · intro dir dir' config config' name hlookup hlookup' hnamed hnamed'
        exact h.unique dir dir' config config' name (hlookup_of dir config hlookup).2
          (hlookup_of dir' config' hlookup').2 hnamed hnamed'
      · intro dir config name hlookup hnamed hdir
        exact h.not_dir dir config name (hlookup_of dir config hlookup).2 hnamed
          (AList.mem_erase.mp hdir).2
      · intro dir dir' config config' hlookup hlookup' hnamed
        exact h.not_id dir dir' config config' (hlookup_of dir config hlookup).2
          (hlookup_of dir' config' hlookup').2 hnamed
      · intro hindex dir config hlookup hnamed
        refine h.named ?_ dir config (hlookup_of dir config hlookup).2 hnamed
        cases hw : workspace.name <;> simpa [hw] using hindex
      · intro idx hindex name id
        obtain ⟨idx₀, hidx₀, hidx⟩ : ∃ idx₀, repo.nameIndex = some idx₀ ∧
            ∀ id, idx.lookup name = some id ↔
              workspace.name ≠ some name ∧ idx₀.lookup name = some id := by
          cases hw : workspace.name with
          | none =>
              rw [hw] at hindex
              exact ⟨idx, hindex, by simp⟩
          | some gone =>
              rw [hw] at hindex
              obtain ⟨idx₀, hidx₀, rfl⟩ := Option.map_eq_some_iff.mp hindex
              refine ⟨idx₀, hidx₀, fun id => ?_⟩
              rw [KeyedMap.lookup_erase_eq_some]
              simp [eq_comm]
        rw [hidx, h.indexed idx₀ hidx₀]
        constructor
        · rintro ⟨hne, config, hlookup, hnamed, hid⟩
          refine ⟨config, KeyedMap.lookup_erase_eq_some.mpr ⟨?_, hlookup⟩, hnamed, hid⟩
          intro heq
          rw [heq, hgone] at hlookup
          cases hlookup
          exact hne (hname ▸ hnamed)
        · rintro ⟨config, hlookup, hnamed, hid⟩
          obtain ⟨hne, hlookup⟩ := hlookup_of _ config hlookup
          refine ⟨?_, config, hlookup, hnamed, hid⟩
          intro hsame
          exact hne (h.unique _ _ config gone name hlookup hgone hnamed (hname.trans hsame))
  · cases hrun

theorem consistent_clear : Consistent env (clear repo) := by
  refine ⟨⟨?_, ?_, ?_, ?_, ?_⟩, ?_, ?_⟩ <;> simp [clear]

theorem consistent_step (hinjective : Function.Injective env.hashStrSha256) (call : Call)
    (repo repo' : Repo) (hstep : Step env call repo repo') (h : Consistent env repo) :
    Consistent env repo' := by
  obtain ⟨hnext, hmeets⟩ := hstep
  by_cases heq : repo' = repo
  · rwa [heq]
  · have hmeets := hmeets heq
    unfold Call.next at hnext
    cases hrun : call.run env repo with
    | error e =>
        rw [hrun] at hnext
        exact absurd hnext heq
    | ok repo'' =>
        rw [hrun] at hnext
        subst hnext
        cases call with
        | create commit workspaceId isEditable => exact consistent_create h hinjective hmeets hrun
        | createWithName commit workspaceId workspaceName isEditable =>
            exact consistent_createWithName h hinjective hmeets hrun
        | updateCommit workspace newCommitId => exact consistent_updateCommit h hmeets hrun
        | delete workspace => exact consistent_delete h hmeets hrun
        | clear =>
            cases hrun
            exact consistent_clear

/-! ## Runs -/

theorem namesResolve_of_run (hinjective : Function.Injective env.hashStrSha256) {repo₀ : Repo}
    (hindex : repo₀.nameIndex = none) (hseparate : Separate env repo₀) {calls : List Call}
    (hrun : Run (Step env) calls repo₀ repo) : NamesResolve env repo := by
  have hstart : Consistent env repo₀ :=
    { toSeparate := hseparate
      named := by simp [hindex]
      indexed := by simp [hindex] }
  exact (hrun.keeps (consistent_step hinjective) hstart).namesResolve

namespace Example

def prefixed : Env where
  hashStrSha256 id := "sha256-" ++ id
  commitExists _ := true

theorem hash_injective : Function.Injective prefixed.hashStrSha256 :=
  fun _ _ h => (String.append_right_inj "sha256-").mp h

def fresh : Repo where
  workspaces := ∅
  nameIndex := none

theorem separate_fresh : Separate prefixed fresh := by
  refine ⟨?_, ?_, ?_, ?_, ?_⟩ <;> simp [fresh]

/-- A workspace `b`, then one with the id `b`. -/
def nameThenId : List Call :=
  [.createWithName "commit" "a" (some "b") true, .create "commit" "b" true]

end Example

theorem not_namesResolve : ¬ ∀ (env : Env) (repo₀ : Repo) (calls : List Call),
    Function.Injective env.hashStrSha256 → (∀ commit, env.commitExists commit) →
    repo₀.nameIndex = none → Separate env repo₀ →
    NamesResolve env (calls.foldl (Call.next env) repo₀) := by
  intro h
  have hresolve := h Example.prefixed Example.fresh Example.nameThenId Example.hash_injective
    (fun _ => rfl) rfl Example.separate_fresh
  obtain ⟨workspace, hget, -, hname⟩ := hresolve.get_named "sha256-a"
    ⟨"commit", true, some "b", some "a"⟩ "b" (by decide) rfl
  have hother : (get Example.prefixed (Example.nameThenId.foldl (Call.next Example.prefixed) Example.fresh)
      "b").map Prod.fst = .ok (some ⟨"b", none, "commit", true, "sha256-b"⟩) := by
    decide
  rw [hother] at hget
  cases hget
  cases hname

theorem namesResolve_of_run_create :
    NamesResolve Example.prefixed (Call.next Example.prefixed Example.fresh
      (.createWithName "commit" "a" (some "b") true)) := by
  have hmeets : Call.Meets Example.prefixed Example.fresh
      (.createWithName "commit" "a" (some "b") true) := by
    refine ⟨rfl, by simp [Example.fresh], fun name _ => ⟨by simp [Example.fresh], fun _ => ?_⟩⟩
    simp [NamedHaveIds, Example.fresh]
  exact namesResolve_of_run Example.hash_injective rfl Example.separate_fresh
    (.cons ⟨rfl, fun _ => hmeets⟩ (.nil _))

end WorkspaceNames

end Oxen
