import Dominance.MethodBody.Basic

/-!
# Warming up many method bodies

The trees of many method bodies can be built ahead of time. Bodies share nothing, so they may be
visited in any order; a schedule lists their positions in the order of the visits. A visit of an
empty body fails. The warm-up succeeds if no visit fails, and keeps what was built either way.

The warm-up is `precompute_dominators`, whose visits may come in any order.
-/

namespace Dominance
namespace MethodBody

variable {β : Type}

/-- Visit the body at a position. The first failure is remembered. -/
def warmOne (x : Except Error Unit × Array (MethodBody β)) (i : Nat) :
    Logged (Except Error Unit × Array (MethodBody β)) :=
  match x.2[i]? with
  | none => pure x
  | some m => do
    let (t, m) ← m.dominators
    let outcome := match x.1, t with
      | .error e, _ => .error e
      | .ok (), .error e => .error e
      | .ok (), .ok _ => .ok ()
    pure (outcome, x.2.setIfInBounds i m)

/-- Visit bodies by a schedule. -/
def warmBy (schedule : List Nat) (bodies : Array (MethodBody β)) :
    Logged (Except Error Unit × Array (MethodBody β)) := do
  let (outcome, warmed) ← schedule.foldlM warmOne (.ok (), bodies)
  match outcome with
  | .error e => pure (.error e, warmed)
  | .ok () => do
    Logged.record [.warmedUp bodies.size]
    pure (.ok (), warmed)

/-- Visit all bodies from the first to the last. -/
def warmAll (bodies : Array (MethodBody β)) : Logged (Except Error Unit × Array (MethodBody β)) :=
  warmBy (List.range bodies.size) bodies

end MethodBody
end Dominance
