import Mathlib.Data.List.Infix

/-! Paths as steps through a tree of directories: one name down, or one directory up.
No step leaves the root upwards. -/

namespace LexicalPath

variable {α : Type*}

inductive Step (α : Type*) where
  | up
  | down (name : α)
deriving DecidableEq, Repr

/-- A place is the list of names that leads to it from the root. -/
def step (place : List α) : Step α → List α
  | .up => place.dropLast
  | .down name => place ++ [name]

def walk (place : List α) (steps : List (Step α)) : List α :=
  steps.foldl step place

@[simp] theorem walk_nil (place : List α) : walk place [] = place := rfl

@[simp] theorem walk_append (place : List α) (steps more : List (Step α)) :
    walk place (steps ++ more) = walk (walk place steps) more :=
  List.foldl_append

@[simp] theorem walk_down (place names : List α) :
    walk place (names.map .down) = place ++ names := by
  induction names generalizing place with
  | nil => simp
  | cons name names ih =>
    change walk (place ++ [name]) (names.map .down) = _
    rw [ih, List.append_assoc, List.singleton_append]

/-- What is left of steps after each `down` that an `up` takes back is dropped: some steps
up, then names to go down to. -/
structure Climb (α : Type*) where
  ups : ℕ := 0
  downs : List α := []

def Climb.step (climb : Climb α) : Step α → Climb α
  | .up =>
      if climb.downs.isEmpty then { climb with ups := climb.ups + 1 }
      else { climb with downs := climb.downs.dropLast }
  | .down name => { climb with downs := climb.downs ++ [name] }

def climb (steps : List (Step α)) : Climb α :=
  steps.foldl Climb.step {}

/-- Where a climb ends that starts at `place`. -/
def Climb.end (place : List α) (c : Climb α) : List α :=
  place.take (place.length - c.ups) ++ c.downs

theorem Climb.end_step (place : List α) (c : Climb α) (s : Step α) :
    (c.step s).end place = LexicalPath.step (c.end place) s := by
  cases s with
  | down name => simp [Climb.step, Climb.end, LexicalPath.step]
  | up =>
    by_cases hd : c.downs = []
    · simp only [Climb.step, Climb.end, LexicalPath.step, hd, List.isEmpty_nil, if_true,
        List.append_nil, List.dropLast_eq_take, List.take_take, List.length_take]
      apply congrArg (place.take ·)
      omega
    · have he : c.downs.isEmpty = false := by simpa using hd
      simp only [Climb.step, Climb.end, LexicalPath.step, he, Bool.false_eq_true, if_false]
      rw [List.dropLast_append_of_ne_nil hd]

theorem walk_eq_end (place : List α) (steps : List (Step α)) :
    walk place steps = (climb steps).end place := by
  have h : ∀ c : Climb α,
      steps.foldl step (c.end place) = (steps.foldl Climb.step c).end place := by
    induction steps with
    | nil => intro c; rfl
    | cons s steps ih =>
      intro c
      rw [List.foldl_cons, List.foldl_cons, ← ih, Climb.end_step]
  have hs := h {}
  simpa [walk, climb, Climb.end] using hs

/-- A climb from below `dir` ends below `dir` exactly if it comes back down whatever part
of `dir` it climbed out of. -/
theorem Climb.prefix_end_iff (dir below : List α) (c : Climb α) :
    dir <+: c.end (dir ++ below) ↔ dir.drop ((dir ++ below).length - c.ups) <+: c.downs := by
  set kept := (dir ++ below).length - c.ups with hk
  rw [Climb.end, ← hk]
  rcases Nat.lt_or_ge kept dir.length with hlt | hge
  · rw [List.take_append_of_le_length hlt.le]
    conv_lhs => rw [← List.take_append_drop kept dir]
    rw [List.take_append_of_le_length (by simp; omega), List.take_take, min_self,
      List.prefix_append_right_inj]
  · have hdrop : dir.drop kept = [] := List.drop_eq_nil_of_le hge
    rw [hdrop]
    refine iff_of_true ?_ List.nil_prefix
    apply List.IsPrefix.trans _ (List.prefix_append _ _)
    rw [List.take_append, List.take_of_length_le hge]
    exact List.prefix_append _ _

end LexicalPath
