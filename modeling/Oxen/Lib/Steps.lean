import Mathlib.Data.List.Basic

/-! Programs that act on a state by one operation after another. -/

namespace Steps

variable {σ ω ε α β : Type}

/-- The state after some operations. -/
def after (apply : σ → ω → σ) (s : σ) (ops : List ω) : σ :=
  ops.foldl apply s

/-- What a program does from a state, and how it ends. -/
def Program (_apply : σ → ω → σ) (ε α : Type) : Type :=
  σ → List ω × Except ε α

variable {apply : σ → ω → σ}

namespace Program

/-- The second part starts where the first one ends. -/
def bind (x : Program apply ε α) (f : α → Program apply ε β) : Program apply ε β := fun s =>
  match x s with
  | (ops, .error e) => (ops, .error e)
  | (ops, .ok a) => (ops ++ (f a (after apply s ops)).1, (f a (after apply s ops)).2)

instance : Monad (Program apply ε) where
  pure a := fun _ => ([], .ok a)
  bind := Program.bind

def perform (op : ω) : Program apply ε Unit := fun _ => ([op], .ok ())

/-- Reads the state, or fails. -/
def read (f : σ → Except ε α) : Program apply ε α := fun s => ([], f s)

def throw (e : ε) : Program apply ε α := fun _ => ([], .error e)

variable {x : Program apply ε α} {f : α → Program apply ε β} {s : σ} {a : α} {e : ε}

theorem bind_of_ok (h : (x s).2 = .ok a) :
    (x >>= f) s = ((x s).1 ++ (f a (after apply s (x s).1)).1,
      (f a (after apply s (x s).1)).2) := by
  change Program.bind x f s = _
  unfold Program.bind
  rcases hx : x s with ⟨ops, result⟩
  rw [hx] at h
  obtain rfl : result = .ok a := h
  rfl

theorem bind_of_error (h : (x s).2 = .error e) : (x >>= f) s = ((x s).1, .error e) := by
  change Program.bind x f s = _
  unfold Program.bind
  rcases hx : x s with ⟨ops, result⟩
  rw [hx] at h
  obtain rfl : result = .error e := h
  rfl

/-- Programs that do the same from a state go on the same. -/
theorem bind_congr {y : Program apply ε α} (h : x s = y s) : (x >>= f) s = (y >>= f) s := by
  change Program.bind x f s = Program.bind y f s
  unfold Program.bind
  rw [h]

end Program

end Steps
