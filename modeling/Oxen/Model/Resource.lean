import Oxen.Model.Archives
import Oxen.Model.Server

/-! Resources of a repository by their paths: a commit, a branch or a workspace, and a path of
a file in it. -/

namespace Oxen

namespace Resource

open OsPath

structure Branch where
  name : String
  commitId : String
deriving DecidableEq, Repr

structure ParsedResource (ω : Type) where
  commit : Option CommitNode := none
  branch : Option Branch := none
  workspace : Option ω := none
  path : String := ""
  version : String
  resource : String

/-- Pushes one component to the text of a path. -/
def pushText (acc : String) (c : Component) : String :=
  if c = .rootDir then c.text
  else if acc.toList = [] ∨ acc.toList.getLast? = some '/' then acc ++ c.text
  else acc ++ "/" ++ c.text

def joinComponents (components : OsPath) : String :=
  components.foldl pushText ""

def remainingPath (components : OsPath) (skip : ℕ) : String :=
  joinComponents (components.drop skip)

def linuxPathStr (s : String) : String :=
  String.ofList (s.toList.map fun c => if c = '\\' then '/' else c)

def getBranchByName (refs : Refs) (name : String) : Option Branch :=
  (refs.branches.lookup name).map fun commitId => { name, commitId }

/-- What is tried as a branch, with the path of the file in it. The whole path comes last. -/
def splits (components : OsPath) : List (OsPath × OsPath) :=
  (List.range components.length).reverse.map fun split =>
    if split = 0 then (components, []) else (components.take split, components.drop split)

variable {ω ε : Type} (db : NodeStore) (refs : Refs)

def tryParseAsBranch (path : String) (components : OsPath) : Option (ParsedResource ω) :=
  (splits components).findSome? fun (branchComponents, fileComponents) =>
    (getBranchByName refs (linuxPathStr (joinComponents branchComponents))).map fun branch =>
      { commit := Commits.getById db branch.commitId
        branch := some branch
        path := joinComponents fileComponents
        version := branch.name
        resource := path }

-- Workspaces by id or name, with the id of each.
variable (workspaces : String → Except ε (Option ω)) (workspaceId : ω → String)

def parseResourceFromPath (path : String) : Except ε (Option (ParsedResource ω)) :=
  match components path with
  | [] => .ok none
  | first :: rest =>
      match Commits.getById db first.text with
      | some commit =>
          .ok (some
            { commit := some commit
              path := remainingPath (first :: rest) 1
              version := commit.hash.display
              resource := path })
      | none =>
          match tryParseAsBranch db refs path (first :: rest) with
          | some resource => .ok (some resource)
          | none =>
              match workspaces first.text with
              | .error e => .error e
              | .ok none => .ok none
              | .ok (some workspace) =>
                  .ok (some
                    { workspace := some workspace
                      path := remainingPath (first :: rest) 1
                      version := workspaceId workspace
                      resource := path })

end Resource

end Oxen
