import Psrp.Lib.Async

/-!
# A Parked Future

One future that survives its caller giving up.

A call that drives the slot waits for the future in it, and may be dropped
while it waits. The future stays where it is then, and the next call polls the
same one. Only a future that has completed is forgotten, or one that is given
up on purpose.

What a future does is its own affair: it is a state, and `advance` says what a
poll makes of it, given whatever there is to find at that moment. A call that is
never polled again and one that is dropped leave the same state behind. A call
does not fail; what a future returns may well be an error.

Futures are named by how many were started before them, and `history` is what
became of them. Neither is in the source.

## Main definitions

* `ParkedEvent`: What becomes of a future.
* `Parked`: The slot.
* `Parked.drive`: Wait for the future, starting one if there is none.
* `Parked.discard`: Give it up.
-/

namespace Psrp

/-- What becomes of a future. A slot is discarded with or without one. -/
inductive ParkedEvent (τ : Type) where
  | started (number : Nat)
  | completed (number : Nat) (output : τ)
  | discarded
  deriving DecidableEq

/-- A slot for one future. -/
structure Parked (φ τ : Type) where
  history : List (ParkedEvent τ)
  inFlight : Option (Nat × φ)

namespace Parked

open Async (Turn)

variable {ω φ τ : Type}

/-- A slot with nothing in it. -/
def new : Parked φ τ := { history := [], inFlight := none }

/-- Note what became of a future. -/
def note (e : ParkedEvent τ) (p : Parked φ τ) : Parked φ τ :=
  { p with history := p.history ++ [e] }

/-- How many futures were started. -/
def starts (history : List (ParkedEvent τ)) : Nat :=
  history.countP fun e => match e with
    | .started _ => true
    | _ => false

/-- Start a future, unless one is in flight. -/
def getOrInsertWith (start : Unit → φ) (p : Parked φ τ) : Parked φ τ :=
  match p.inFlight with
  | some _ => p
  | none => { p with inFlight := some (starts p.history, start ()) }.note (.started (starts p.history))

/-- Forget the future in flight. -/
def clear (p : Parked φ τ) : Parked φ τ := { p with inFlight := none }

/-- Wait for the future in flight, and poll it once. It stays in the slot,
    whatever the poll makes of it. -/
def poll (advance : φ → ω → φ ⊕ τ) : Async ω Empty (Parked φ τ) (Turn Unit τ) := do
  match (← Async.get).inFlight with
  | none => return .more ()
  | some (number, future) =>
    match ← Async.await fun a => some (advance future a) with
    | .inl future =>
      Async.modify fun p => { p with inFlight := some (number, future) }
      return .more ()
    | .inr output =>
      Async.modify (note (.completed number output))
      return .done output

/-- Drive the future in flight, starting one first if there is none. A call
    dropped here leaves it parked, and it is forgotten only once it has
    completed. -/
def drive (advance : φ → ω → φ ⊕ τ) (start : Unit → φ) : Async ω Empty (Parked φ τ) τ := do
  Async.modify (getOrInsertWith start)
  let output ← Async.loop (fun _ => poll advance) ()
  Async.modify clear
  return output

/-- Give up the future in flight. -/
def discard (p : Parked φ τ) : Parked φ τ := p.clear.note .discarded

/-- What is done with a slot. -/
inductive Operation (φ : Type) where
  | drive (start : Unit → φ)
  | discard

/-- Do it. -/
def perform (advance : φ → ω → φ ⊕ τ) : Operation φ → Async ω Empty (Parked φ τ) (Option τ)
  | .drive start => do
    let output ← drive advance start
    return some output
  | .discard => do
    Async.modify discard
    return none

end Parked

end Psrp
