import Oxen.Lib.Occurrences
import Oxen.Model.WorkingTree
import Oxen.Model.ZipArchive

/-! Filter expressions on data frames: comparisons joined by logical operators. -/

namespace Oxen

namespace Filters

abbrev Text := List Char

inductive DFLogicalOp where
  | and
  | or
deriving DecidableEq, Repr

def DFLogicalOp.asStr : DFLogicalOp → Text
  | .and => ['&', '&']
  | .or => ['|', '|']

inductive DFFilterOp where
  | eq
  | lt
  | gt
  | gte
  | lte
  | neq
deriving DecidableEq, Repr

def DFFilterOp.asStr : DFFilterOp → Text
  | .eq => ['=', '=']
  | .lt => ['<']
  | .gt => ['>']
  | .gte => ['>', '=']
  | .lte => ['<', '=']
  | .neq => ['!', '=']

structure DFFilterVal where
  op : DFFilterOp
  field : Text
  value : Text
deriving DecidableEq, Repr

structure DFFilterExp where
  /-- All the operators that chain the comparisons. -/
  logicalOps : List DFLogicalOp
  vals : List DFFilterVal
deriving DecidableEq, Repr

def trim (text : Text) : Text :=
  Occurrences.trim Zip.isWhitespace text

def splitAndTrim (input delimiter : Text) : List Text :=
  (Occurrences.split delimiter input).map trim

/-! ## Parsing -/

/-- The first of the logical operators in the query. -/
def findNextLogicalOp (query : Text) (logicalOps : List DFLogicalOp) : Option (DFLogicalOp × ℕ) :=
  (logicalOps.foldl (fun (found : Option (DFLogicalOp × ℕ) × ℕ) op =>
    match Occurrences.find op.asStr query with
    | none => found
    | some idx => if idx < found.2 then (some (op, idx), idx) else found) (none, query.length)).1

def candidateOps : List DFLogicalOp := [.and, .or]

/-- The logical operators and the sub expressions between them. Every operator shortens the
filter, so its length bounds the rounds. -/
def subExprs : ℕ → Text → List DFLogicalOp × List Text
  | 0, filter => ([], [trim filter])
  | rounds + 1, filter =>
      match findNextLogicalOp filter candidateOps with
      | none => ([], [trim filter])
      | some (op, idx) =>
          let remaining := subExprs rounds (filter.drop (idx + op.asStr.length))
          (op :: remaining.1, trim (filter.take idx) :: remaining.2)

/-- In the order they are tried, which matters as some are parts of others. -/
def filterOps : List DFFilterOp := [.neq, .gte, .lte, .eq, .gt, .lt]

/-- A text that contains the operator has at least two parts. -/
def filterVal (subExpr : Text) (op : DFFilterOp) : DFFilterVal :=
  let split := splitAndTrim subExpr op.asStr
  { op, field := split.getD 0 [], value := split.getD 1 [] }

/-- A sub expression without an operator is passed over. -/
def parseSubExpr (subExpr : Text) : Option DFFilterVal :=
  (filterOps.find? fun op => op.asStr <:+: subExpr).map (filterVal subExpr)

def parseError (value : Text) : OxenError :=
  .basicStr ("Parse error: \"" ++ String.ofList value ++ "\"")

def parse : Option Text → Except OxenError (Option DFFilterExp)
  | none => .ok none
  | some filter =>
      if filter.isEmpty then .error (parseError filter)
      else
        let found := subExprs filter.length filter
        .ok (some { logicalOps := found.1, vals := found.2.filterMap parseSubExpr })

/-! ## Filtering -/

/-- The condition on the rows. A comparison stands for its column and literal. -/
inductive Expr where
  | compare (filter : DFFilterVal)
  | and (expr chainExpr : Expr)
  | or (expr chainExpr : Expr)
deriving DecidableEq, Repr

/-- Panics (`none`) when there is no comparison left for an operator. -/
def chain (expr : Expr) : List DFLogicalOp → List DFFilterVal → Option Expr
  | [], _ => some expr
  | _ :: _, [] => none
  | .and :: ops, val :: vals => chain (.and expr (.compare val)) ops vals
  | .or :: ops, val :: vals => chain (.or expr (.compare val)) ops vals

/-- The condition that the rows are filtered by, if any. -/
def filterDf (filter : DFFilterExp) : Option (Option Expr) :=
  match filter.vals with
  | [] => some none
  | val :: vals => (chain (.compare val) filter.logicalOps vals).map some

end Filters

end Oxen
