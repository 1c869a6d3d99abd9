import Mathlib.Data.List.Sort
import Mathlib.Data.Prod.Lex
import Oxen.Model.Revisions

/-! Commit history: traversals of the commit graph, pagination and counting. -/

namespace Oxen

namespace Commits

/-- The largest `usize`. -/
def usizeMax : ℕ := 2 ^ 64 - 1

/-- Order of the traversal heap: by timestamp, ties broken by the commit id. -/
def rank (commit : CommitNode) : ℕ ×ₗ String :=
  toLex (commit.timestamp, commit.hash.display)

/-- A max-heap is kept as the list of its items in the order they are popped. -/
def heapPush (heap : List CommitNode) (commit : CommitNode) : List CommitNode :=
  heap.orderedInsert (fun a b => rank b ≤ rank a) commit

/-- The number of commits in a history, by commit id. -/
abbrev CountDb := KeyedMap.Map MerkleHash ℕ

structure CommitTraversalConfig where
  headCommit : CommitNode
  stopAtBase : Option CommitNode := none
  skip : ℕ
  limit : ℕ
  cacheDb : Option CountDb := none
  knownTotalCount : Option ℕ := none
  collectResults : Bool

/-- The state of a traversal. -/
structure Traversal where
  heap : List CommitNode
  visited : List MerkleHash := []
  count : ℕ := 0
  results : List CommitNode := []

/-- The parents to go to next; missing parents are left out. -/
def unvisitedParents (db : NodeStore) (visited : List MerkleHash) (commit : CommitNode) :
    List CommitNode :=
  (commit.parentIds.filterMap (getByHash db)).filter (·.hash ∉ visited)

/-- Visits everything the stack leads to, and counts the commits that are new. -/
def markAncestorsLoop (db : NodeStore) :
    ℕ → List CommitNode → List MerkleHash → ℕ → Option (List MerkleHash × ℕ)
  | 0, _, _, _ => none
  | _ + 1, [], visited, newlyVisited => some (visited, newlyVisited)
  | fuel + 1, current :: stack, visited, newlyVisited =>
      if current.hash ∈ visited then markAncestorsLoop db fuel stack visited newlyVisited
      else
        let visited := current.hash :: visited
        markAncestorsLoop db fuel ((unvisitedParents db visited current).reverse ++ stack) visited
          (newlyVisited + 1)

/-- The commit itself is already visited, so the stack starts with its parents. -/
def markAncestorsVisited (db : NodeStore) (fuel : ℕ) (commit : CommitNode)
    (visited : List MerkleHash) : Option (List MerkleHash × ℕ) :=
  markAncestorsLoop db fuel (unvisitedParents db visited commit).reverse visited 0

/-- Counts a commit and collects it when it lies in the window. -/
def Traversal.collect (config : CommitTraversalConfig) (s : Traversal) (commit : CommitNode) :
    Traversal :=
  let inWindow := config.collectResults ∧ config.skip ≤ s.count ∧
    s.count < config.skip + config.limit
  { s with
    results := if inWindow then s.results ++ [commit] else s.results
    count := s.count + 1 }

def isCached (config : CommitTraversalConfig) (commit : CommitNode) : Bool :=
  (config.cacheDb.bind (·.lookup commit.hash)).isSome

/-- Pops commits, newest first, until the heap is empty or the window is full. -/
def traverseLoop (db : NodeStore) (config : CommitTraversalConfig) :
    ℕ → Traversal → Option Traversal
  | 0, _ => none
  | fuel + 1, s =>
      match s.heap with
      | [] => some s
      | commit :: heap =>
          if commit.hash ∈ s.visited then traverseLoop db config fuel { s with heap }
          else
            let visited := commit.hash :: s.visited
            let collected := Traversal.collect config { s with heap, visited } commit
            if config.stopAtBase.map (·.hash) = some commit.hash then
              traverseLoop db config fuel collected
            else if isCached config commit then
              match markAncestorsVisited db fuel commit visited with
              | none => none
              | some (visited, newlyVisited) =>
                  traverseLoop db config fuel
                    { s with heap, visited, count := s.count + (1 + newlyVisited) }
            else if config.knownTotalCount.isSome ∧ config.collectResults ∧
                config.skip + config.limit ≤ collected.count then
              some collected
            else
              traverseLoop db config fuel
                { collected with
                  heap := (unvisitedParents db visited commit).foldl heapPush heap }

/-- The collected commits and the total count. -/
def traverseCommits (db : NodeStore) (fuel : ℕ) (config : CommitTraversalConfig) :
    Option (List CommitNode × ℕ) :=
  (traverseLoop db config fuel { heap := [config.headCommit] }).map fun s =>
    (s.results, config.knownTotalCount.getD s.count)

def listRecursivePaginated (db : NodeStore) (fuel : ℕ) (headCommit : CommitNode)
    (skip limit : ℕ) (stopAtBase : Option CommitNode) (knownTotalCount : Option ℕ) :
    Option (List CommitNode × ℕ) :=
  traverseCommits db fuel
    { headCommit, stopAtBase, skip, limit, knownTotalCount, collectResults := true }

/-- The history between two commits, the base included. -/
def listBetween (db : NodeStore) (fuel : ℕ) (base head : CommitNode) :
    Option (List CommitNode) :=
  (listRecursivePaginated db fuel head 0 usizeMax (some base) none).map Prod.fst

def firstParent (db : NodeStore) (commit : CommitNode) : Option CommitNode :=
  commit.parentIds.head?.bind (getByHash db)

/-- Follows first parents until the window is full, which takes at most one
iteration for each position up to its end. -/
def listForwardLoop (db : NodeStore) (skip endIdx : ℕ) :
    ℕ → Option CommitNode → ℕ → List CommitNode → List CommitNode
  | 0, _, _, results => results
  | _ + 1, none, _, results => results
  | iterations + 1, some commit, count, results =>
      let results := if skip ≤ count ∧ count < endIdx then results ++ [commit] else results
      if endIdx ≤ count + 1 then results
      else listForwardLoop db skip endIdx iterations (firstParent db commit) (count + 1) results

def listForwardPaginated (db : NodeStore) (headCommit : CommitNode) (skip limit : ℕ) :
    List CommitNode :=
  listForwardLoop db skip (skip + limit) (skip + limit + 1) (some headCommit) 0 []

/-- The size of the history of a revision, with whether it was cached. -/
def countFrom (db : NodeStore) (refs : Refs) (fuel : ℕ) (cache : CountDb) (revision : String) :
    Option (Except RevisionError (ℕ × Bool) × CountDb) :=
  match Revisions.get db refs revision with
  | .error e => some (.error e, cache)
  | .ok none => some (.error (.revisionNotFound revision), cache)
  | .ok (some commit) =>
      match cache.lookup commit.hash with
      | some cachedCount => some (.ok (cachedCount, true), cache)
      | none =>
          (traverseCommits db fuel
            { headCommit := commit, skip := 0, limit := usizeMax, cacheDb := some cache,
              collectResults := false }).map fun (_, count) =>
            (.ok (count, false), cache.insert commit.hash count)

/-- The text up to the next `..`. -/
def untilDots : List Char → List Char
  | '.' :: '.' :: _ => []
  | c :: cs => c :: untilDots cs
  | [] => []

/-- The first two parts of a text that contains `..`. -/
def splitDots : List Char → Option (List Char × List Char)
  | '.' :: '.' :: cs => some ([], untilDots cs)
  | c :: cs => (splitDots cs).map fun (base, head) => (c :: base, head)
  | [] => none

def parseRange (revision : String) : Option (String × String) :=
  (splitDots revision.toList).map fun (base, head) => (String.ofList base, String.ofList head)

/-- One page of the history of a revision or of a range `base..head`: the
commits, the total count and whether that was cached. -/
def listFromPaginatedImpl (db : NodeStore) (refs : Refs) (fuel : ℕ) (cache : CountDb)
    (revision : String) (skip limit : ℕ) :
    Option (Except RevisionError (List CommitNode × ℕ × Bool) × CountDb) :=
  match parseRange revision with
  | some (base, head) =>
      match getById db base, getById db head with
      | none, _ => some (.error (.revisionNotFound base), cache)
      | some _, none => some (.error (.revisionNotFound head), cache)
      | some baseCommit, some headCommit =>
          (listRecursivePaginated db fuel headCommit skip limit (some baseCommit) none).map
            fun (commits, totalCount) => (.ok (commits, totalCount, false), cache)
  | none =>
      match Revisions.get db refs revision with
      | .error e => some (.error e, cache)
      | .ok none => some (.ok ([], 0, false), cache)
      | .ok (some commit) =>
          match countFrom db refs fuel cache commit.hash.display with
          | none => none
          | some (.error e, cache) => some (.error e, cache)
          | some (.ok (totalCount, cached), cache) =>
              if skip + limit ≤ 10 then
                some (.ok (listForwardPaginated db commit skip limit, totalCount, cached), cache)
              else
                (listRecursivePaginated db fuel commit skip limit none (some totalCount)).map
                  fun (commits, _) => (.ok (commits, totalCount, cached), cache)

/-- The whole history of a revision. -/
def listFrom (db : NodeStore) (refs : Refs) (fuel : ℕ) (cache : CountDb) (revision : String) :
    Option (Except RevisionError (List CommitNode) × CountDb) :=
  (listFromPaginatedImpl db refs fuel cache revision 0 usizeMax).map fun (result, cache) =>
    (result.map Prod.fst, cache)

end Commits

end Oxen
