/-!
A computation that may give up. Giving up keeps the state reached so far, so that what was
recorded before, such as an error message, is not lost.
-/
namespace Chunkwise

def Attempt (σ α : Type) : Type := σ → Option α × σ

namespace Attempt

variable {σ α β γ : Type}

@[always_inline, inline]
protected def pure (a : α) : Attempt σ α := fun s => (some a, s)

@[always_inline, inline]
protected def bind (p : Attempt σ α) (f : α → Attempt σ β) : Attempt σ β := fun s =>
  match p s with
  | (some a, s') => f a s'
  | (none, s') => (none, s')

@[always_inline]
instance : Monad (Attempt σ) where
  pure := Attempt.pure
  bind := Attempt.bind

@[always_inline, inline]
def fail : Attempt σ α := fun s => (none, s)

@[always_inline, inline]
def gets (f : σ → α) : Attempt σ α := fun s => (some (f s), s)

@[always_inline, inline]
def modify (f : σ → σ) : Attempt σ Unit := fun s => (some (), f s)

/-- Never gives up: reports by `none` that `p` did. -/
@[always_inline, inline]
def optional (p : Attempt σ α) : Attempt σ (Option α) := fun s =>
  match p s with
  | (a?, s') => (some a?, s')

/-- Gives up exactly on `none`. -/
@[always_inline, inline]
def ofOption (a? : Option α) : Attempt σ α := fun s => (a?, s)

/-- Runs `step` from `b` until it yields a result, at most `limit` times. -/
def loop (step : β → Attempt σ (β ⊕ α)) : Nat → β → Attempt σ α
  | 0, _ => fail
  | limit + 1, b => do
    match ← step b with
    | .inl b' => loop step limit b'
    | .inr a => pure a

/-- Runs `f` on every element in order, whatever gives up on the way. -/
def forAll (f : α → Attempt σ β) : List α → Attempt σ (List (Option β))
  | [] => pure []
  | a :: as => do
    let b? ← optional (f a)
    let bs ← forAll f as
    pure (b? :: bs)

/-- Runs `f` on every element and keeps what it yields. -/
def keepSome (f : α → Attempt σ β) (as : List α) : Attempt σ (List β) := do
  return (← forAll f as).filterMap id

/-- The elements of a list without gaps. -/
def allSome : List (Option α) → Option (List α)
  | [] => some []
  | none :: _ => none
  | some a :: rest => (allSome rest).map (a :: ·)

end Attempt

end Chunkwise
