import Lox.Session
import Mathlib.Logic.Relation

/-!
The evaluations that a run is made of. A point is one of them with the machine that it starts on, and
a point calls another where the evaluator evaluates a part of what it has.
-/

namespace Lox

open Run

/-- One evaluation of a run, with its fuel and the machine that it starts on. -/
inductive Point where
  | expr (n : Nat) (e : Expr) (m : Machine)
  | exprs (n : Nat) (es : List Expr) (m : Machine)
  | call (n : Nat) (callee : Value) (paren : Token) (arguments : List Value) (m : Machine)
  | bind (method : Closure) (receiver : Instance) (m : Machine)
  | invoke (n : Nat) (closure : Closure) (arguments : List Value) (m : Machine)
  | stmt (n : Nat) (s : Stmt) (m : Machine)
  | stmts (n : Nat) (body : List Stmt) (m : Machine)
  | loop (n : Nat) (condition : Expr) (body : Stmt) (increment : Option Expr) (m : Machine)
  /-- The statements of an input, of which each one has all the fuel. -/
  | each (fuel : Nat) (body : List Stmt) (m : Machine)

def machineOf {α : Type} : EStateM.Result Halt Machine α → Machine
  | .ok _ m | .error _ m => m

section Inputs

variable {fuel : Nat} {mode : Mode} {source : String} {s : Session}

/-- However the program of an input ends, the session goes on with the machine that it leaves. -/
theorem run_accepted (hc : (compile source mode s.nextId).diagnostics = []) :
    (s.run fuel mode source).2 =
      ⟨{ machineOf (Run.program fuel (compile source mode s.nextId).program
          (s.machine.addHops (compile source mode s.nextId).hops)) with printed := [] },
        (compile source mode s.nextId).nextId⟩ := by
  unfold Session.run
  simp only [List.isEmpty_iff.2 hc, if_true]
  cases Run.program fuel (compile source mode s.nextId).program
      (s.machine.addHops (compile source mode s.nextId).hops) with
  | ok value m => rfl
  | error halt m => cases halt <;> rfl

theorem run_rejected (hc : (compile source mode s.nextId).diagnostics ≠ []) :
    s.run fuel mode source =
      (⟨[], .rejected (compile source mode s.nextId).diagnostics⟩,
        { s with nextId := (compile source mode s.nextId).nextId }) := by
  unfold Session.run
  simp [hc]

end Inputs

namespace Point

/-- The machine before the evaluation. -/
def start : Point → Machine
  | expr _ _ m | exprs _ _ m | call _ _ _ _ m | bind _ _ m | invoke _ _ _ m | stmt _ _ m
  | stmts _ _ m | loop _ _ _ _ m | each _ _ m => m

/-- The machine after the evaluation, however it ends. -/
def stop : Point → Machine
  | expr n e m => machineOf (eval n e m)
  | exprs n es m => machineOf (evalAll n es m)
  | call n callee paren arguments m => machineOf (Run.call n callee paren arguments m)
  | bind method receiver m => machineOf (access (.bindMethod method receiver) m)
  | invoke n called arguments m => machineOf (Run.invoke n called arguments m)
  | stmt n s m => machineOf (exec n s m)
  | stmts n body m => machineOf (execAll n body m)
  | loop n condition body increment m => machineOf (iterate n condition body increment m)
  | each fuel body m => machineOf (execEach fuel body m)

end Point

/-- A point evaluates another one. What was evaluated before it has given a result. -/
inductive Calls : Point → Point → Prop where
  | grouping {n inner m} : Calls (.expr (n + 1) (.grouping inner) m) (.expr n inner m)
  | operand {n operator right m} : Calls (.expr (n + 1) (.unary operator right) m) (.expr n right m)
  | left {n left operator right m} :
    Calls (.expr (n + 1) (.binary left operator right) m) (.expr n left m)
  | right {n left operator right m a m'} (hl : eval n left m = .ok a m')
    (hk : afterLeft operator.kind a ≠ .keepLeft) :
    Calls (.expr (n + 1) (.binary left operator right) m) (.expr n right m')
  | condition {n condition thenBranch elseBranch m} :
    Calls (.expr (n + 1) (.conditional condition thenBranch elseBranch) m) (.expr n condition m)
  | thenValue {n condition thenBranch elseBranch m v m'} (hc : eval n condition m = .ok v m')
    (hv : v.isTruthy = true) :
    Calls (.expr (n + 1) (.conditional condition thenBranch elseBranch) m) (.expr n thenBranch m')
  | elseValue {n condition thenBranch elseBranch m v m'} (hc : eval n condition m = .ok v m')
    (hv : v.isTruthy = false) :
    Calls (.expr (n + 1) (.conditional condition thenBranch elseBranch) m) (.expr n elseBranch m')
  | assigned {n target value m} : Calls (.expr (n + 1) (.assign target value) m) (.expr n value m)
  | callee {n callee paren arguments m} :
    Calls (.expr (n + 1) (.call callee paren arguments) m) (.expr n callee m)
  | arguments {n callee paren arguments m f m'} (hf : eval n callee m = .ok f m') :
    Calls (.expr (n + 1) (.call callee paren arguments) m) (.exprs n arguments m')
  | call {n callee paren arguments m f m' vs m''} (hf : eval n callee m = .ok f m')
    (ha : evalAll n arguments m' = .ok vs m'') :
    Calls (.expr (n + 1) (.call callee paren arguments) m) (.call n f paren vs m'')
  | object {n object name m} : Calls (.expr (n + 1) (.get object name) m) (.expr n object m)
  | bindProperty {n object name m receiver m' method}
    (ho : eval n object m = .ok (.instance receiver) m')
    (hp : m'.heap.property? receiver.id name.lexeme = none)
    (hm : receiver.cls.method? name.lexeme = some method) :
    Calls (.expr (n + 1) (.get object name) m) (.bind method receiver m')
  | setObject {n object name value m} :
    Calls (.expr (n + 1) (.set object name value) m) (.expr n object m)
  | setValue {n object name value m o m' table m''} (ho : eval n object m = .ok o m')
    (ht : propertyTable o name m' = .ok table m'') :
    Calls (.expr (n + 1) (.set object name value) m) (.expr n value m'')
  | bindSuper {n ref method m distance cls receiver found} (hd : m.hops[ref.id]? = some distance)
    (hs : access (.getAt m.environment distance ref.name) m = .ok (.class cls) m)
    (ht : access (.getAt m.environment (distance - 1) (.synthetic .this "this" ref.name.line)) m =
      .ok (.instance receiver) m)
    (hm : cls.method? method.lexeme = some found) :
    Calls (.expr (n + 1) (.super ref method) m) (.bind found receiver m)
  | firstExpr {n e rest m} : Calls (.exprs (n + 1) (e :: rest) m) (.expr n e m)
  | restExprs {n e rest m v m'} (he : eval n e m = .ok v m') :
    Calls (.exprs (n + 1) (e :: rest) m) (.exprs n rest m')
  | function {n closure paren arguments m}
    (ha : checkArity paren closure.function.arity arguments.length m = .ok () m) :
    Calls (.call (n + 1) (.function closure) paren arguments m) (.invoke n closure arguments m)
  | bindInitializer {n cls paren arguments m id m' method}
    (ha : checkArity paren cls.arity arguments.length m = .ok () m)
    (ho : access (.newObject ∅) m = .ok id m') (hm : cls.initializer? = some method) :
    Calls (.call (n + 1) (.class cls) paren arguments m) (.bind method ⟨id, cls⟩ m')
  | initializer {n cls paren arguments m id m' method closure m''}
    (ha : checkArity paren cls.arity arguments.length m = .ok () m)
    (ho : access (.newObject ∅) m = .ok id m') (hm : cls.initializer? = some method)
    (hb : access (.bindMethod method ⟨id, cls⟩) m' = .ok closure m'') :
    Calls (.call (n + 1) (.class cls) paren arguments m) (.invoke n closure arguments m'')
  | body {n closure arguments m inner m'}
    (hi : access (callEnvironment closure arguments) m = .ok inner m') :
    Calls (.invoke (n + 1) closure arguments m)
      (.stmts n closure.function.body { m' with environment := inner })
  | expression {n e m} : Calls (.stmt (n + 1) (.expression e) m) (.expr n e m)
  | print {n e m} : Calls (.stmt (n + 1) (.print e) m) (.expr n e m)
  | var {n name e m} : Calls (.stmt (n + 1) (.var name (some e)) m) (.expr n e m)
  | block {n body m inner m'} (hi : access (.child m.environment) m = .ok inner m') :
    Calls (.stmt (n + 1) (.block body) m) (.stmts n body { m' with environment := inner })
  | iteCondition {n condition thenBranch elseBranch m} :
    Calls (.stmt (n + 1) (.ite condition thenBranch elseBranch) m) (.expr n condition m)
  | thenBranch {n condition thenBranch elseBranch m v m'} (hc : eval n condition m = .ok v m')
    (hv : v.isTruthy = true) :
    Calls (.stmt (n + 1) (.ite condition thenBranch elseBranch) m) (.stmt n thenBranch m')
  | elseBranch {n condition thenBranch elseBranch m v m'} (hc : eval n condition m = .ok v m')
    (hv : v.isTruthy = false) :
    Calls (.stmt (n + 1) (.ite condition thenBranch (some elseBranch)) m) (.stmt n elseBranch m')
  | loop {n condition body increment m} :
    Calls (.stmt (n + 1) (.loop condition body increment) m) (.loop n condition body increment m)
  | returned {n keyword e m} : Calls (.stmt (n + 1) (.return keyword (some e)) m) (.expr n e m)
  | firstStmt {n s rest m} : Calls (.stmts (n + 1) (s :: rest) m) (.stmt n s m)
  | restStmts {n s rest m m'} (hs : exec n s m = .ok .normal m') :
    Calls (.stmts (n + 1) (s :: rest) m) (.stmts n rest m')
  | turnCondition {n condition body increment m} :
    Calls (.loop (n + 1) condition body increment m) (.expr n condition m)
  | turnBody {n condition body increment m v m'} (hc : eval n condition m = .ok v m')
    (hv : v.isTruthy = true) :
    Calls (.loop (n + 1) condition body increment m) (.stmt n body m')
  | increment {n condition body e m v m' c m''} (hc : eval n condition m = .ok v m')
    (hv : v.isTruthy = true) (hb : exec n body m' = .ok c m'') (hgo : c = .normal ∨ c = .continue) :
    Calls (.loop (n + 1) condition body (some e) m) (.expr n e m'')
  | nextTurn {n condition body m v m' c m''} (hc : eval n condition m = .ok v m')
    (hv : v.isTruthy = true) (hb : exec n body m' = .ok c m'') (hgo : c = .normal ∨ c = .continue) :
    Calls (.loop (n + 1) condition body none m) (.loop n condition body none m'')
  | nextTurnAfter {n condition body e m v m' c m'' v' m'''} (hc : eval n condition m = .ok v m')
    (hv : v.isTruthy = true) (hb : exec n body m' = .ok c m'') (hgo : c = .normal ∨ c = .continue)
    (hi : eval n e m'' = .ok v' m''') :
    Calls (.loop (n + 1) condition body (some e) m) (.loop n condition body (some e) m''')
  | firstInput {fuel s rest m} : Calls (.each fuel (s :: rest) m) (.stmt fuel s m)
  | restInput {fuel s rest m c m'} (hs : exec fuel s m = .ok c m') :
    Calls (.each fuel (s :: rest) m) (.each fuel rest m')

/-- A point lies within the evaluation of another one. -/
def Reaches : Point → Point → Prop := Relation.ReflTransGen Calls

/-- The evaluation of a program. -/
def Program.point (fuel : Nat) : Program → Machine → Point
  | .statements body, m => .each fuel body m
  | .expression e, m => .expr fuel e m

namespace Session

/-- The points of the step that runs an input. With a diagnostic there is none. -/
def Passes (fuel : Nat) (mode : Mode) (source : String) (s : Session) (P : Point) : Prop :=
  let c := compile source mode s.nextId
  c.diagnostics = [] ∧ Reaches (c.program.point fuel (s.machine.addHops c.hops)) P

/-- The points of all steps. -/
def Visits (fuel : Nat) : List (Mode × String) → Session → Point → Prop
  | [], _, _ => False
  | (mode, source) :: rest, s, P =>
    s.Passes fuel mode source P ∨ Visits fuel rest (s.run fuel mode source).2 P

/-- The inputs that were run. -/
def Accepts (fuel : Nat) : List (Mode × String) → Session → Compilation → Prop
  | [], _, _ => False
  | (mode, source) :: rest, s, c =>
    (c = compile source mode s.nextId ∧ c.diagnostics = []) ∨
      Accepts fuel rest (s.run fuel mode source).2 c

end Session

/-- The error of an evaluation, if it ends with one. -/
def errorOf {α : Type} : EStateM.Result Halt Machine α → Option RuntimeError
  | .error (.error e) _ => some e
  | _ => none

/-- A point looks the name of an occurrence up, on a machine and with an error or without. -/
inductive LooksUp : Point → Reference → Machine → Option RuntimeError → Prop where
  | variable {n ref m} : LooksUp (.expr (n + 1) (.variable ref) m) ref m (errorOf (lookUp ref m))
  | assign {n target value m v m'} (hv : eval n value m = .ok v m') :
    LooksUp (.expr (n + 1) (.assign target value) m) target m' (errorOf (assign target v m'))
  | this {n ref m} : LooksUp (.expr (n + 1) (.this ref) m) ref m (errorOf (lookUp ref m))
  | super {n ref method m} :
    LooksUp (.expr (n + 1) (.super ref method) m) ref m (errorOf (superMethod ref method m))
  | superclass {n name ref own statics m} :
    LooksUp (.stmt (n + 1) (.class name (some ref) own statics) m) ref m (errorOf (lookUp ref m))

end Lox
