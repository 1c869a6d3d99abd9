import Oxen.Model.Archives

/-! Paths relative to directories. A failed `expect`, and an index
out of range, are no result. -/

namespace Oxen

namespace RelativePath

/-- Pushes a component of a path. -/
def pushComponent (result : OsPath) (component : Component) : OsPath :=
  if component = .rootDir then [component] else result ++ [component]

def isNormal : Component → Bool
  | .normal _ => true
  | _ => false

-- `to_lowercase` of the standard library.
variable (toLowercase : String → String)

def sameComponent (pathComponent dirComponent : Component) : Bool :=
  let pathStr := pathComponent.text
  let dirStr := dirComponent.text
  if pathStr = dirStr then true
  else if pathStr.utf8ByteSize = dirStr.utf8ByteSize then
    toLowercase pathStr = toLowercase dirStr
  else false

/-- The normal components from `start` on. -/
def normalsFrom (pathComponents : OsPath) (start : ℕ) : Option OsPath :=
  if start ≤ pathComponents.length then
    some (((pathComponents.drop start).filter isNormal).foldl pushComponent [])
  else none

/-- The loop over what is left of the components of the path. -/
def pathRelativeLoop (pathComponents dirComponents : OsPath) :
    OsPath → OsPath → Component → ℕ → ℕ → Option OsPath
  | [], _, _, _, _ => some (pathComponents.foldl pushComponent [])
  | pathComponent :: pathIter, dirIter, dirComponent, matched, startIndex =>
      if sameComponent toLowercase pathComponent dirComponent then
        if matched + 1 = dirComponents.length then
          normalsFrom pathComponents (startIndex + 1)
        else
          match dirIter with
          | [] => none
          | next :: dirIter =>
              pathRelativeLoop pathComponents dirComponents pathIter dirIter next (matched + 1)
                (startIndex + 1)
      else
        match dirComponents with
        | [] => none
        | first :: startingDirIter =>
            pathRelativeLoop pathComponents (first :: startingDirIter) pathIter startingDirIter
              first matched (startIndex + 1)

def pathRelativeToDir (path dir : OsPath) : Option OsPath :=
  if path = [] ∨ dir = path then some []
  else if dir = [] ∨ dir.length > path.length then
    some ((path.filter isNormal).foldl pushComponent [])
  else
    match dir with
    | [] => none
    | first :: dirIter => pathRelativeLoop toLowercase path dir path dirIter first 0 0

def isRelativeLoop (dirComponents : OsPath) :
    OsPath → OsPath → Component → ℕ → Option Bool
  | [], _, _, _ => some false
  | pathComponent :: pathIter, dirIter, dirComponent, matched =>
      if sameComponent toLowercase pathComponent dirComponent then
        if matched + 1 = dirComponents.length then some true
        else
          match dirIter with
          | [] => none
          | next :: dirIter => isRelativeLoop dirComponents pathIter dirIter next (matched + 1)
      else
        match dirComponents with
        | [] => none
        | first :: startingDirIter =>
            isRelativeLoop (first :: startingDirIter) pathIter startingDirIter first 0

def isRelativeToDir (path dir : OsPath) : Option Bool :=
  if path = [] ∨ dir = path then some true
  else if dir = [] ∨ dir.length > path.length then some false
  else
    match dir with
    | [] => none
    | first :: dirIter => isRelativeLoop toLowercase dir path dirIter first 0

end RelativePath

end Oxen
