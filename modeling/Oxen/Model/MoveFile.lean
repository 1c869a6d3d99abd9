import Oxen.Model.Staging

/-! Moving a file in a workspace. -/

namespace Oxen

namespace MoveFile

open Unstage

inductive Error where
  | sameSourceAndDestination (path : PathBuf)
  | notAFile
  | pathDoesNotExist (path : PathBuf)
  | destinationStaged (path : PathBuf)
deriving DecidableEq

variable (getFileByPath : PathBuf → Option FileNode)

def upsertFileNode (db : StagedDb) (path : PathBuf) (status : StagedEntryStatus)
    (fileNode : FileNode) : StagedDb :=
  db.insert path { status, node := .file fileNode }

/-- The file to move: what is staged, else the commit's. -/
def sourceNode (db : StagedDb) (path : PathBuf) : Except Error FileNode :=
  match db.lookup path with
  | some entry =>
      match entry.node with
      | .file node => .ok node
      | _ => .error .notAFile
  | none =>
      match getFileByPath path with
      | some node => .ok node
      | none => .error (.pathDoesNotExist path)

/-- Stages the old path as removed and the new one as added. The directories above the two share
what was seen of them. -/
def mv (db : StagedDb) (path newPath : PathBuf) : Except Error Unit × StagedDb :=
  if path = newPath then (.error (.sameSourceAndDestination path), db)
  else
    match sourceNode getFileByPath db path with
    | .error e => (.error e, db)
    | .ok fileNode =>
        let newStatus : StagedEntryStatus :=
          if (getFileByPath newPath).isSome then .modified else .added
        if (db.lookup newPath).isSome then (.error (.destinationStaged newPath), db)
        else
          let db := upsertFileNode db newPath newStatus { fileNode with name := newPath }
          let t : Adding :=
            if (getFileByPath path).isSome then
              let db := upsertFileNode db path .removed { fileNode with name := path }
              addParents path.length path (db, [])
            else (db.erase path, [])
          (.ok (), (addParents newPath.length newPath t).1)

end MoveFile

end Oxen
