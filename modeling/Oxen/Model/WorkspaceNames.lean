import Oxen.Lib.KeyedMap

/-! Workspaces of a repository, found by id or by name. Reading and writing their configs does
not fail. -/

namespace Oxen

namespace WorkspaceNames

structure WorkspaceConfig where
  workspaceCommitId : String
  isEditable : Bool
  workspaceName : Option String
  /-- Absent in the configs that older versions wrote. -/
  workspaceId : Option String
deriving DecidableEq, Repr

structure Workspace where
  id : String
  name : Option String
  commit : String
  isEditable : Bool
  /-- The name of its directory. -/
  workspaceRepo : String
deriving DecidableEq, Repr

inductive WorkspaceError where
  | basic (message : String)
  | workspaceAlreadyExists (name : String)
  | workspaceNotFound (id : String)
deriving DecidableEq, Repr

structure Repo where
  /-- The configs in the directories of the workspaces. -/
  workspaces : KeyedMap.Map String WorkspaceConfig
  /-- The name index, from the first workspace that is created with a name. -/
  nameIndex : Option (KeyedMap.Map String String)

/-- What does not change: the hash of ids and the commits of the repository. -/
structure Env where
  hashStrSha256 : String → String
  commitExists : String → Bool

variable (env : Env)

def getByDir (repo : Repo) (workspaceDir : String) : Except WorkspaceError (Option Workspace) :=
  match repo.workspaces.lookup workspaceDir with
  | none => .ok none
  | some config =>
      if env.commitExists config.workspaceCommitId then
        .ok (some
          { id := config.workspaceId.getD workspaceDir
            name := config.workspaceName
            commit := config.workspaceCommitId
            isEditable := config.isEditable
            workspaceRepo := workspaceDir })
      else
        .error (.basic ("Workspace " ++ workspaceDir ++ " has invalid commit_id " ++
          config.workspaceCommitId))

def workspaceDirs (repo : Repo) : List String :=
  (KeyedMap.toList repo.workspaces).map Prod.fst

def scanDirs (repo : Repo) (workspaceName : String) :
    List String → Except WorkspaceError (Option Workspace)
  | [] => .ok none
  | dir :: dirs =>
      match getByDir env repo dir with
      | .error e => .error e
      | .ok none => scanDirs repo workspaceName dirs
      | .ok (some workspace) =>
          if workspace.name = some workspaceName then .ok (some workspace)
          else scanDirs repo workspaceName dirs

/-- The slow path of `getByName`. -/
def scanByName (repo : Repo) (workspaceName : String) :
    Except WorkspaceError (Option Workspace) :=
  scanDirs env repo workspaceName (workspaceDirs repo)

/-- The repository is returned too: a stale entry of the index is removed on the way. -/
def getByName (repo : Repo) (workspaceName : String) :
    Except WorkspaceError (Option Workspace × Repo) :=
  match repo.nameIndex with
  | some idx =>
      match idx.lookup workspaceName with
      | some id => do
          match ← getByDir env repo (env.hashStrSha256 id) with
          | some workspace => return (some workspace, repo)
          | none => return (none, { repo with nameIndex := some (idx.erase workspaceName) })
      | none => .ok (none, repo)
  | none => do return (← scanByName env repo workspaceName, repo)

def get (repo : Repo) (workspaceId : String) : Except WorkspaceError (Option Workspace × Repo) :=
  if env.hashStrSha256 workspaceId ∈ repo.workspaces then do
    return (← getByDir env repo (env.hashStrSha256 workspaceId), repo)
  else getByName env repo workspaceId

def listDirs (repo : Repo) : List String → Except WorkspaceError (List Workspace)
  | [] => .ok []
  | dir :: dirs =>
      match getByDir env repo dir with
      | .error e => .error e
      | .ok none => listDirs repo dirs
      | .ok (some workspace) => do return workspace :: (← listDirs repo dirs)

def list (repo : Repo) : Except WorkspaceError (List Workspace) :=
  listDirs env repo (workspaceDirs repo)

def checkNonEditableWorkspace (workspace : Workspace) (commit : String) :
    Except WorkspaceError Unit :=
  if workspace.commit = commit ∧ ¬ workspace.isEditable then
    .error (.basic ("A non-editable workspace already exists for commit " ++ commit))
  else .ok ()

def checkExistingWorkspaceName (workspace : Workspace) (workspaceName : String) :
    Except WorkspaceError Unit :=
  if workspace.name = some workspaceName ∨ workspaceName = workspace.id then
    .error (.workspaceAlreadyExists workspaceName)
  else .ok ()

def checkWorkspace (commit : String) (workspaceName : Option String) (isEditable : Bool)
    (workspace : Workspace) : Except WorkspaceError Unit := do
  if ¬ isEditable then checkNonEditableWorkspace workspace commit
  match workspaceName with
  | some name => checkExistingWorkspaceName workspace name
  | none => return ()

def validateCreateConstraints (repo : Repo) (commit : String) (workspaceName : Option String)
    (isEditable : Bool) : Except WorkspaceError Unit :=
  match repo.nameIndex, isEditable with
  | some idx, true =>
      match workspaceName with
      | some name =>
          if name ∈ idx then .error (.workspaceAlreadyExists name)
          else if env.hashStrSha256 name ∈ repo.workspaces then
            .error (.workspaceAlreadyExists name)
          else .ok ()
      | none => .ok ()
  | _, _ => do
      let workspaces ← list env repo
      workspaces.forM (checkWorkspace commit workspaceName isEditable)

def createOnDisk (repo : Repo) (commit workspaceId : String) (workspaceName : Option String)
    (isEditable : Bool) : Except WorkspaceError Repo := do
  let workspaceDir := env.hashStrSha256 workspaceId
  if workspaceDir ∈ repo.workspaces then
    throw (.basic ("Workspace " ++ workspaceId ++ " already exists"))
  if workspaceName.isSome ∨ ¬ isEditable then
    validateCreateConstraints env repo commit workspaceName isEditable
  return { repo with
    workspaces := repo.workspaces.insert workspaceDir
      { workspaceCommitId := commit
        isEditable := isEditable
        workspaceName := workspaceName
        workspaceId := some workspaceId } }

/-- Puts a config's name into the index; one without an id is passed over. -/
def indexConfig (idx : KeyedMap.Map String String) (config : WorkspaceConfig) :
    KeyedMap.Map String String :=
  match config.workspaceName, config.workspaceId with
  | some name, some id => idx.insert name id
  | _, _ => idx

def rebuildFromDisk (repo : Repo) : KeyedMap.Map String String :=
  ((KeyedMap.toList repo.workspaces).map Prod.snd).foldl indexConfig ∅

def ensureNameIndex (repo : Repo) : KeyedMap.Map String String :=
  repo.nameIndex.getD (rebuildFromDisk repo)

def create (repo : Repo) (commit workspaceId : String) (isEditable : Bool) :
    Except WorkspaceError Repo :=
  createOnDisk env repo commit workspaceId none isEditable

def createWithName (repo : Repo) (commit workspaceId : String) (workspaceName : Option String)
    (isEditable : Bool) : Except WorkspaceError Repo := do
  let created ← createOnDisk env repo commit workspaceId workspaceName isEditable
  match workspaceName with
  | some name =>
      return { created with nameIndex := some ((ensureNameIndex created).insert name workspaceId) }
  | none => return created

def updateCommit (repo : Repo) (workspace : Workspace) (newCommitId : String) :
    Except WorkspaceError Repo :=
  match repo.workspaces.lookup (env.hashStrSha256 workspace.id) with
  | none => .error (.workspaceNotFound workspace.id)
  | some config =>
      .ok { repo with
        workspaces := repo.workspaces.insert (env.hashStrSha256 workspace.id)
          { config with workspaceCommitId := newCommitId } }

def delete (repo : Repo) (workspace : Workspace) : Except WorkspaceError Repo :=
  if env.hashStrSha256 workspace.id ∈ repo.workspaces then
    .ok
      { workspaces := repo.workspaces.erase (env.hashStrSha256 workspace.id)
        nameIndex :=
          match workspace.name with
          | some name => repo.nameIndex.map (·.erase name)
          | none => repo.nameIndex }
  else .error (.workspaceNotFound workspace.id)

def clear (_repo : Repo) : Repo where
  workspaces := ∅
  nameIndex := none

inductive Call where
  | create (commit workspaceId : String) (isEditable : Bool)
  | createWithName (commit workspaceId : String) (workspaceName : Option String)
      (isEditable : Bool)
  | updateCommit (workspace : Workspace) (newCommitId : String)
  | delete (workspace : Workspace)
  | clear
deriving DecidableEq, Repr

def Call.run (repo : Repo) : Call → Except WorkspaceError Repo
  | .create commit workspaceId isEditable =>
      WorkspaceNames.create env repo commit workspaceId isEditable
  | .createWithName commit workspaceId workspaceName isEditable =>
      WorkspaceNames.createWithName env repo commit workspaceId workspaceName isEditable
  | .updateCommit workspace newCommitId =>
      WorkspaceNames.updateCommit env repo workspace newCommitId
  | .delete workspace => WorkspaceNames.delete env repo workspace
  | .clear => .ok (WorkspaceNames.clear repo)

/-- A call that fails has no effect. -/
def Call.next (repo : Repo) (call : Call) : Repo :=
  match call.run env repo with
  | .ok repo' => repo'
  | .error _ => repo

end WorkspaceNames

end Oxen
