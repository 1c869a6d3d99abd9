import Mathlib.Data.String.Basic
import Mathlib.Tactic.IntervalCases
import Oxen.Lib.KeyedMap
import Oxen.Model.NodeDb

/-! Commits by id, and the names that revisions are given by. -/

namespace Oxen

/-- Lower-case hexadecimal digits without leading zeros. -/
def MerkleHash.display (hash : MerkleHash) : String :=
  String.ofList (Nat.toDigits 16 hash.toNat)

def hexDigit? (c : Char) : Option ℕ :=
  if '0' ≤ c ∧ c ≤ '9' then some (c.toNat - 48)
  else if 'a' ≤ c ∧ c ≤ 'f' then some (c.toNat - 87)
  else if 'A' ≤ c ∧ c ≤ 'F' then some (c.toNat - 55)
  else none

def parseHexDigits : ℕ → List Char → Option ℕ
  | n, [] => some n
  | n, c :: cs => (hexDigit? c).bind fun d => parseHexDigits (n * 16 + d) cs

/-- Reads hexadecimal digits after an optional plus sign; the value has to fit
128 bits. -/
def MerkleHash.parse (s : String) : Option MerkleHash :=
  let digits := match s.toList with
    | '+' :: cs => cs
    | cs => cs
  if digits = [] then none
  else (parseHexDigits 0 digits).bind fun n =>
    if n < 2 ^ 128 then some (BitVec.ofNat 128 n) else none

def EMerkleTreeNode.commit? : EMerkleTreeNode → Option CommitNode
  | .commit c => some c
  | _ => none

namespace Commits

/-- The commit with the given id. Parents are commits, so the source's error for
a node of another kind has no counterpart. -/
def getByHash (db : NodeStore) (hash : MerkleHash) : Option CommitNode :=
  match db hash with
  | some { node := .commit commit, .. } => some commit
  | _ => none

def getById (db : NodeStore) (commitId : String) : Option CommitNode :=
  (MerkleHash.parse commitId).bind (getByHash db)

end Commits

/-- The HEAD file and the commit id of every branch. -/
structure Refs where
  headFile : Option String := none
  branches : KeyedMap.Map String String := ∅

inductive RevisionError where
  | headNotFound
  | revisionNotFound (revision : String)
  | invalidHash (text : String)
  | basicStr (message : String)
  /-- The text of the error also has the one of the operating system. -/
  | fileRead (name : String)
deriving DecidableEq, Repr

namespace Refs

/-- The HEAD file holds a branch name or a commit id. -/
def headCommitId (refs : Refs) (db : NodeStore) : Option String :=
  refs.headFile.bind fun headRef =>
    match refs.branches.lookup headRef with
    | some commitId => some commitId
    | none => if (Commits.getById db headRef).isSome then some headRef else none

end Refs

namespace Commits

def headCommit (db : NodeStore) (refs : Refs) : Except RevisionError CommitNode :=
  match refs.headCommitId db with
  | none => .error .headNotFound
  | some commitId =>
      match MerkleHash.parse commitId with
      | none => .error (.invalidHash commitId)
      | some hash =>
          match getByHash db hash with
          | none => .error (.basicStr
              ("Merkle tree node not found for head commit: '" ++ hash.display ++ "'"))
          | some commit => .ok commit

end Commits

/-- A revision is `HEAD`, a branch name or a commit id. -/
def Revisions.get (db : NodeStore) (refs : Refs) (revision : String) :
    Except RevisionError (Option CommitNode) :=
  if revision = "HEAD" then (Commits.headCommit db refs).map some
  else .ok (Commits.getById db ((refs.branches.lookup revision).getD revision))

/-! ## Ids as text -/

private theorem hexDigit?_digitChar {d : ℕ} (h : d < 16) :
    hexDigit? (Nat.digitChar d) = some d := by
  interval_cases d <;> rfl

private theorem parseHexDigits_append (n : ℕ) (xs ys : List Char) :
    parseHexDigits n (xs ++ ys) = (parseHexDigits n xs).bind fun m => parseHexDigits m ys := by
  induction xs generalizing n with
  | nil => rfl
  | cons c cs ih =>
      simp only [List.cons_append, parseHexDigits]
      cases hexDigit? c with
      | none => rfl
      | some d => simpa using ih _

private theorem parseHexDigits_toDigits (n : ℕ) :
    parseHexDigits 0 (Nat.toDigits 16 n) = some n := by
  induction n using Nat.strongRecOn with
  | ind n ih =>
      by_cases hn : n < 16
      · rw [Nat.toDigits_of_lt_base hn]
        simp [parseHexDigits, hexDigit?_digitChar hn]
      · rw [Nat.toDigits_of_base_le (by decide) (by omega), parseHexDigits_append,
          ih _ (by omega)]
        have hd := hexDigit?_digitChar (Nat.mod_lt n (by decide : 16 > 0))
        simp only [Option.bind_some, parseHexDigits, hd]
        simp only [Option.some.injEq]
        omega

theorem MerkleHash.parse_display (hash : MerkleHash) : parse hash.display = some hash := by
  have hparse := parseHexDigits_toDigits hash.toNat
  have hlt : hash.toNat < 2 ^ 128 := hash.isLt
  rw [parse, display, String.toList_ofList]
  rcases hdigits : Nat.toDigits 16 hash.toNat with _ | ⟨c, cs⟩
  · rw [Nat.toDigits_eq_if (by decide)] at hdigits
    split at hdigits <;> simp at hdigits
  · rw [hdigits] at hparse
    have hplus : c ≠ '+' := by
      rintro rfl
      simp [parseHexDigits, hexDigit?] at hparse
    simpa [hparse, hplus] using hlt

theorem MerkleHash.display_injective : Function.Injective display := by
  intro x y h
  have hparse := parse_display y
  rw [← h, parse_display] at hparse
  exact Option.some.inj hparse

end Oxen
