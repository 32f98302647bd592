/-! # Cancellation

Long-running work watches a token and ends when the token is cancelled.  Tokens are cloned:
clones share one trigger, so cancelling one of them cancels all, and for good.  A `Registry`
holds the triggers and the tokens made so far, by number. -/

namespace SnapshotStore.Cancellation

/-- All tokens: the trigger of each, and which triggers were pulled. -/
structure Registry where
  triggers : List Nat
  pulled : List Bool
deriving DecidableEq, Repr

namespace Registry

/-- The registry without tokens. -/
def empty : Registry := ⟨[], []⟩

/-- The number that the next token gets. -/
def size (r : Registry) : Nat := r.triggers.length

/-- Makes a token with a trigger of its own. -/
def create (r : Registry) : Registry := ⟨r.triggers ++ [r.pulled.length], r.pulled ++ [false]⟩

/-- Makes a token that shares the trigger of another. -/
def clone (r : Registry) (token : Nat) : Registry :=
  { r with triggers := r.triggers ++ (r.triggers[token]?).toList }

/-- Cancels a token and its clones. -/
def cancel (r : Registry) (token : Nat) : Registry :=
  match r.triggers[token]? with
  | none => r
  | some trigger => { r with pulled := r.pulled.set trigger true }

/-- Whether a token is cancelled. -/
def isCancelled (r : Registry) (token : Nat) : Bool :=
  match r.triggers[token]? with
  | none => false
  | some trigger => r.pulled.getD trigger false

/-- Whether each token is cancelled, in order of number. -/
def states (r : Registry) : List Bool := r.triggers.map (r.pulled.getD · false)

/-- How a token is shown. -/
def describe (cancelled : Bool) : String :=
  "Shutdown \x7b cancelled: " ++ toString cancelled ++ " \x7d"

end Registry
end SnapshotStore.Cancellation
