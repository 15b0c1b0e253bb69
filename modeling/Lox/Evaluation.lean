import Lox.Heap.Access

namespace Lox

/-- How a statement ends that does not fail. All but `normal` skip what follows, up to the loop or
the call that they end. -/
inductive Completion where
  | normal
  | «return» (value : Value)
  | «break»
  | «continue»

/-- Why an evaluation ends without a result. -/
inductive Halt where
  | error (e : RuntimeError)
  | outOfFuel

/-- A running program: its heap, the environment of the code that runs, the hops of all code read so
far, the texts printed, latest first, and the seconds that `clock` tells. -/
structure Machine where
  heap : Heap
  environment : Environment
  hops : HopMap
  printed : List String
  time : Float

/-- The environment of top-level code. Its frame is the first one made. -/
def Environment.global : Environment := ⟨0, []⟩

/-- The machine before any program has run. -/
def Machine.start (time : Float) : Machine :=
  let (environment, heap) := Heap.empty.newFrame []
  { heap := heap.setSlot environment.inner "clock" (.assigned (.native .clock))
    environment
    hops := ∅
    printed := []
    time }

/-- The hops of an input join those of earlier ones, whose code may run again. -/
def Machine.addHops (m : Machine) (hops : HopMap) : Machine :=
  { m with hops := hops.foldl (fun all id distance => all.insert id distance) m.hops }

/-- Calls, statements and turns of loops inside one another spend fuel. No run that ends in a
lifetime spends as much as this. -/
def ampleFuel : Nat := Nat.pow 2 62

abbrev Run (α : Type) := EStateM Halt Machine α

namespace Run

def outOfFuel {α : Type} : Run α := throw .outOfFuel

def fail {α : Type} (token : Token) (fault : RuntimeFault) : Run α := throw (.error ⟨token, fault⟩)

/-- The whole machine is taken apart first, so that the heap is not shared while it changes. -/
def access {α : Type} (action : Access α) : Run α := fun ⟨heap, environment, hops, printed, time⟩ =>
  match action heap with
  | .ok a heap => .ok a ⟨heap, environment, hops, printed, time⟩
  | .error e heap => .error (.error e) ⟨heap, environment, hops, printed, time⟩

def environment : Run Environment := fun m => .ok m.environment m

/-- Runs an action in another environment and comes back, however the action ends. -/
def within {α : Type} (environment : Environment) (action : Run α) : Run α := fun m =>
  let caller := m.environment
  match action { m with environment } with
  | .ok a m => .ok a { m with environment := caller }
  | .error e m => .error e { m with environment := caller }

def print (value : Value) : Run Unit := fun m =>
  .ok () { m with printed := value.text :: m.printed }

def hops? (id : NodeId) : Run (Option Nat) := fun m => .ok m.hops[id]? m

/-- An occurrence with hops is local, any other is global. -/
def lookUp (ref : Reference) : Run Value := do
  match ← hops? ref.id with
  | some distance => access (.getAt (← environment) distance ref.name)
  | none => access (.get .global ref.name)

def assign (target : Reference) (value : Value) : Run Unit := do
  match ← hops? target.id with
  | some distance => access (.assignAt (← environment) distance target.name value)
  | none => access (.assign .global target.name value)

def negate (operator : Token) : Value → Run Value
  | .number x => pure (.number (-x))
  | _ => fail operator .operandNotNumber

def unary (operator : Token) (right : Value) : Run Value :=
  match operator.kind with
  | .minus => negate operator right
  | .bang => pure (.boolean (!right.isTruthy))
  | _ => fail operator .malformed

def numeric (operator : Token) (a b : Float) : Run Value :=
  match operator.kind with
  | .minus => pure (.number (a - b))
  | .star => pure (.number (a * b))
  | .slash => pure (.number (a / b))
  | .greater => pure (.boolean (b < a))
  | .greaterEqual => pure (.boolean (b ≤ a))
  | .less => pure (.boolean (a < b))
  | .lessEqual => pure (.boolean (a ≤ b))
  | _ => fail operator .malformed

def add (operator : Token) : Value → Value → Run Value
  | .number a, .number b => pure (.number (a + b))
  | .string a, .string b => pure (.string (a ++ b))
  | _, _ => fail operator .operandsNotAddable

def binary (operator : Token) (left right : Value) : Run Value :=
  match operator.kind with
  | .plus => add operator left right
  | .equalEqual => pure (.boolean (left.equal right))
  | .bangEqual => pure (.boolean (!left.equal right))
  | _ =>
    match left, right with
    | .number a, .number b => numeric operator a b
    | _, _ => fail operator .operandsNotNumbers

/-- What an operator does once it has its left operand. -/
inductive AfterLeft where
  | keepLeft
  | takeRight
  | combine

def afterLeft (operator : TokenKind) (left : Value) : AfterLeft :=
  match operator with
  | .or => if left.isTruthy then .keepLeft else .takeRight
  | .and => if left.isTruthy then .takeRight else .keepLeft
  | .comma => .takeRight
  | _ => .combine

def property (object : Value) (name : Token) : Run Value :=
  match object with
  | .instance object => access (.instanceProperty object name)
  | .class cls => access (.classProperty cls name)
  | _ => fail name .noProperties

/-- The table that an assignment to a property writes. -/
def propertyTable (object : Value) (name : Token) : Run ObjectId :=
  match object with
  | .instance object => pure object.id
  | .class cls => pure cls.own.id
  | _ => fail name .noFields

/-- The method as the superclass has it, bound to the receiver, whose frame lies one hop inside that
of `super`. -/
def superMethod (ref : Reference) (method : Token) : Run Value := do
  match ← hops? ref.id with
  | none => fail ref.name (.undefinedVariable "super")
  | some distance =>
    let e ← environment
    match ← access (.getAt e distance ref.name) with
    | .class cls =>
      let this := Token.synthetic .this "this" ref.name.line
      match ← access (.getAt e (distance - 1) this) with
      | .instance receiver =>
        match cls.method? method.lexeme with
        | some found => .function <$> access (.bindMethod found receiver)
        | none => fail method (.undefinedProperty method.lexeme)
      | _ => fail ref.name .noProperties
    | _ => fail ref.name .superclassNotClass

def superclass (ref? : Option Reference) : Run (Option Class) := do
  match ref? with
  | none => pure none
  | some ref =>
    match ← lookUp ref with
    | .class cls => pure (some cls)
    | _ => fail ref.name .superclassNotClass

/-- The environment of the methods, in which `super` is bound if there is a superclass. -/
def methodEnvironment (e : Environment) (superclass : Option Class) : Access Environment := do
  match superclass with
  | none => pure e
  | some cls =>
    let inner ← .child e
    .bind inner "super" (.class cls)
    pure inner

/-- The name is there, but unassigned, while the class is made. -/
def defineClass (name : Token) (superclass : Option Class) (own statics : List FunctionDecl)
    (e : Environment) : Access Unit := do
  .define e name none
  let inner ← methodEnvironment e superclass
  let methods ← .methodTable inner own ∅
  let id ← .newObject (← .staticTable inner statics ∅)
  let ancestors := (superclass.map fun cls => cls.own :: cls.ancestors).getD []
  .assign e name (.class ⟨⟨id, name.lexeme, methods⟩, ancestors⟩)

def define (name : Token) (value : Option Value) : Run Unit := do
  access (.define (← environment) name value)

def closure (name : Option String) (function : Lambda) : Run Value := do
  .function <$> access (.newClosure name function (← environment) false)

def checkArity (paren : Token) (expected given : Nat) : Run Unit :=
  if given = expected then pure () else fail paren (.wrongArgumentCount expected given)

def native (function : Native) : Run Value :=
  match function with
  | .clock => fun m => .ok (.number m.time) m

/-- The environment of a call, in which the parameters are bound. -/
def callEnvironment (closure : Closure) (arguments : List Value) : Access Environment := do
  let inner ← .child closure.environment
  .defineAll inner (closure.function.params.zip arguments)
  pure inner

/-- An initializer gives its receiver, whatever it returns. -/
def callResult (closure : Closure) (completion : Completion) : Run Value :=
  if closure.isInitializer then
    access (.getAt closure.environment 0 (.synthetic .this "this" 0))
  else
    match completion with
    | .return value => pure value
    | _ => pure .nil

mutual

def eval : Nat → Expr → Run Value
  | 0, _ => outOfFuel
  | n + 1, e =>
    match e with
    | .literal value => pure value.value
    | .grouping inner => eval n inner
    | .unary operator right => do unary operator (← eval n right)
    | .binary left operator right => do
      let a ← eval n left
      match afterLeft operator.kind a with
      | .keepLeft => pure a
      | .takeRight => eval n right
      | .combine => binary operator a (← eval n right)
    | .binaryError operator _ => fail operator .malformed
    | .conditional condition thenBranch elseBranch => do
      if (← eval n condition).isTruthy then eval n thenBranch else eval n elseBranch
    | .variable ref => lookUp ref
    | .assign target value => do
      let value ← eval n value
      assign target value
      pure value
    | .call callee paren arguments => do
      let callee ← eval n callee
      call n callee paren (← evalAll n arguments)
    | .get object name => do property (← eval n object) name
    | .set object name value => do
      let table ← propertyTable (← eval n object) name
      let value ← eval n value
      access (.setProperty table name.lexeme value)
      pure value
    | .this ref => lookUp ref
    | .super ref method => superMethod ref method
    | .lambda function => closure none function

def evalAll : Nat → List Expr → Run (List Value)
  | 0, _ => outOfFuel
  | _ + 1, [] => pure []
  | n + 1, e :: rest => do
    let first ← eval n e
    return first :: (← evalAll n rest)

def call : Nat → Value → (paren : Token) → List Value → Run Value
  | 0, _, _, _ => outOfFuel
  | n + 1, callee, paren, arguments =>
    match callee with
    | .native function => do
      checkArity paren function.arity arguments.length
      native function
    | .function closure => do
      checkArity paren closure.function.arity arguments.length
      invoke n closure arguments
    | .class cls => do
      checkArity paren cls.arity arguments.length
      let object : Instance := ⟨← access (.newObject ∅), cls⟩
      match cls.initializer? with
      | none => pure (.instance object)
      | some method =>
        let _ ← invoke n (← access (.bindMethod method object)) arguments
        pure (.instance object)
    | _ => fail paren .notCallable

/-- Runs the body of a closure. -/
def invoke : Nat → Closure → List Value → Run Value
  | 0, _, _ => outOfFuel
  | n + 1, closure, arguments => do
    let inner ← access (callEnvironment closure arguments)
    callResult closure (← within inner (execAll n closure.function.body))

def exec : Nat → Stmt → Run Completion
  | 0, _ => outOfFuel
  | n + 1, s =>
    match s with
    | .expression e => do
      let _ ← eval n e
      pure .normal
    | .print e => do
      print (← eval n e)
      pure .normal
    | .var name none => do
      define name none
      pure .normal
    | .var name (some e) => do
      define name (some (← eval n e))
      pure .normal
    | .block body => do
      let inner ← access (.child (← environment))
      within inner (execAll n body)
    | .ite condition thenBranch elseBranch => do
      if (← eval n condition).isTruthy then exec n thenBranch
      else
        match elseBranch with
        | some branch => exec n branch
        | none => pure .normal
    | .loop condition body increment => iterate n condition body increment
    | .break _ => pure .break
    | .continue _ => pure .continue
    | .breakError keyword => fail keyword .malformed
    | .continueError keyword => fail keyword .malformed
    | .function (.mk name function) => do
      define name (some (← closure (some name.lexeme) function))
      pure .normal
    | .return _ none => pure (.return .nil)
    | .return _ (some e) => do return .return (← eval n e)
    | .class name superclass? own statics => do
      let superclass ← superclass superclass?
      access (defineClass name superclass own statics (← environment))
      pure .normal

/-- Runs statements up to the first that does not end normally. -/
def execAll : Nat → List Stmt → Run Completion
  | 0, _ => outOfFuel
  | _ + 1, [] => pure .normal
  | n + 1, s :: rest => do
    match ← exec n s with
    | .normal => execAll n rest
    | other => pure other

def iterate : Nat → Expr → Stmt → Option Expr → Run Completion
  | 0, _, _, _ => outOfFuel
  | n + 1, condition, body, increment => do
    if (← eval n condition).isTruthy then
      match ← exec n body with
      | .break => pure .normal
      | .return value => pure (.return value)
      | .normal | .continue =>
        match increment with
        | some e => do
          let _ ← eval n e
          iterate n condition body increment
        | none => iterate n condition body increment
    else pure .normal

end

end Run

end Lox
