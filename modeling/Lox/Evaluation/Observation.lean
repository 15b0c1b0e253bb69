import Lox.Evaluation

namespace Lox

/-- How one statement, or the expression, of a program ends when it runs by itself. -/
inductive Outcome where
  | completed (c : Completion)
  | valued (value : Value)
  | failed (e : RuntimeError)
  | outOfFuel

namespace Machine

/-- Runs one action and takes the printed texts off the machine. -/
def observe {α : Type} (action : Run α) (outcome : α → Outcome) (m : Machine) :
    (Outcome × List String) × Machine :=
  match action m with
  | .ok a m => ((outcome a, m.printed.reverse), { m with printed := [] })
  | .error (.error e) m => ((.failed e, m.printed.reverse), { m with printed := [] })
  | .error .outOfFuel m => ((.outOfFuel, m.printed.reverse), { m with printed := [] })

def observeEach (fuel : Nat) : List Stmt → Machine → List (Outcome × List String) × Machine
  | [], m => ([], m)
  | s :: rest, m =>
    let (first, m) := observe (Run.exec fuel s) .completed m
    let (others, m) := observeEach fuel rest m
    (first :: others, m)

/-- Runs the parts of a program, each whatever became of those before it. An expression is not
printed. -/
def observeProgram (fuel : Nat) (p : Program) (m : Machine) :
    List (Outcome × List String) × Machine :=
  match p with
  | .statements body => observeEach fuel body m
  | .expression e =>
    let (first, m) := observe (Run.eval fuel e) .valued m
    ([first], m)

/-- The value of a global name. -/
def global (m : Machine) (name : String) : Except RuntimeError Value :=
  match Access.get .global (.synthetic .identifier name 0) m.heap with
  | .ok value _ => .ok value
  | .error e _ => .error e

end Machine

end Lox
