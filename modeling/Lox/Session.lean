import Lox.Compilation
import Lox.Evaluation

namespace Lox

namespace Run

/-- Runs each statement. How one ends does not matter to the next. -/
def execEach (fuel : Nat) : List Stmt → Run Unit
  | [] => pure ()
  | s :: rest => do
    let _ ← exec fuel s
    execEach fuel rest

/-- The value of an expression is printed as well. -/
def program (fuel : Nat) : Program → Run (Option Value)
  | .statements body => do
    execEach fuel body
    pure none
  | .expression e => do
    let value ← eval fuel e
    print value
    pure (some value)

end Run

/-- How a step of a session ends. -/
inductive Ending where
  | finished (value : Option Value)
  | rejected (diagnostics : List Diagnostic)
  | failed (e : RuntimeError)
  | outOfFuel

/-- What a step of a session shows. -/
structure Step where
  printed : List String
  ending : Ending

namespace Step

/-- The runtime errors reported. The first one ends the step. -/
def reported (s : Step) : List RuntimeError :=
  match s.ending with
  | .failed e => [e]
  | _ => []

def exitCode (s : Step) : Nat :=
  match s.ending with
  | .finished _ => 0
  | .rejected _ => 65
  | .failed _ | .outOfFuel => 70

end Step

/-- A machine that runs one input after another, and the next unused node number. -/
structure Session where
  machine : Machine
  nextId : NodeId

namespace Session

def start (time : Float) : Session := ⟨.start time, 0⟩

/-- Takes the printed texts off the machine. -/
def finish (m : Machine) (nextId : NodeId) (ending : Ending) : Step × Session :=
  (⟨m.printed.reverse, ending⟩, ⟨{ m with printed := [] }, nextId⟩)

/-- Runs an input. With a diagnostic nothing of it runs. -/
def run (fuel : Nat) (mode : Mode) (source : String) (s : Session) : Step × Session :=
  let c := compile source mode s.nextId
  if c.diagnostics.isEmpty then
    match Run.program fuel c.program (s.machine.addHops c.hops) with
    | .ok value m => finish m c.nextId (.finished value)
    | .error (.error e) m => finish m c.nextId (.failed e)
    | .error .outOfFuel m => finish m c.nextId .outOfFuel
  else (⟨[], .rejected c.diagnostics⟩, { s with nextId := c.nextId })

/-- Runs inputs one after another. -/
def runAll (fuel : Nat) : List (Mode × String) → Session → List Step × Session
  | [], s => ([], s)
  | (mode, source) :: rest, s =>
    let (step, s) := s.run fuel mode source
    let (steps, s) := runAll fuel rest s
    (step :: steps, s)

end Session

end Lox
