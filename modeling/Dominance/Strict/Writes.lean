import Dominance.Error

/-!
# Writes

A change is made of writes, one after the other, each of which takes effect at once. A refusal ends the
change and does not undo what has been written before. There is no result at all if an index is absent.
-/

namespace Dominance
namespace Strict

/-- A sequence of writes to a state. A refusal ends it and keeps what has been written so far. -/
abbrev Writes (σ α : Type) := ExceptT Error (StateT σ Option) α

namespace Writes

variable {σ α β : Type}

/-- The result of writes that begin in a state, and the state afterwards. -/
def perform (w : Writes σ α) (s : σ) : Option (Except Error α × σ) :=
  StateT.run (ExceptT.run w) s

/-- Writes go on after a result and end with a refusal. -/
@[simp] theorem perform_bind (w : Writes σ α) (next : α → Writes σ β) (s : σ) :
    perform (w >>= next) s = (perform w s).bind fun r =>
      match r.1 with
      | .ok a => perform (next a) r.2
      | .error e => some (.error e, r.2) := by
  simp only [perform]
  rw [ExceptT.run_bind, StateT.run_bind]
  congr 1
  funext r
  cases r.1 <;> rfl

/-- A result alone writes nothing. -/
@[simp] theorem perform_pure (a : α) (s : σ) : perform (pure a) s = some (.ok a, s) := rfl

/-- A refusal keeps what has been written before it. -/
@[simp] theorem perform_throw (r : Error) (s : σ) :
    perform (throw r : Writes σ α) s = some (.error r, s) := rfl

/-- Reading writes nothing. -/
@[simp] theorem perform_get (s : σ) : perform get s = some (.ok s, s) := rfl

/-- A change is written at once. -/
@[simp] theorem perform_modify (f : σ → σ) (s : σ) : perform (modify f) s = some (.ok (), f s) := rfl

/-- A look-up writes nothing, and without a result it leaves no state either. -/
@[simp] theorem perform_lift (a : Option α) (s : σ) :
    perform (liftM a) s = a.map fun a => (.ok a, s) := by
  cases a <;> rfl

end Writes
end Strict
end Dominance
