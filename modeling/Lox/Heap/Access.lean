import Lox.Heap
import Lox.RuntimeError

namespace Lox

/-- What a running program does to the heap. The heap is kept when there is an error. -/
abbrev Access (α : Type) := EStateM RuntimeError Heap α

namespace Access

def fail {α : Type} (token : Token) (fault : RuntimeFault) : Access α := throw ⟨token, fault⟩

/-- The value of the name in one frame. -/
def read (frame : FrameId) (name : Token) : Access Value := fun h =>
  match h.slot? frame name.lexeme with
  | some (.assigned value) => .ok value h
  | some .unassigned => fail name (.unassignedVariable name.lexeme) h
  | none => fail name (.undefinedVariable name.lexeme) h

/-- Replaces the value of a name that the frame has. -/
def overwrite (frame : FrameId) (name : Token) (value : Value) : Access Unit := fun h =>
  match h.slot? frame name.lexeme with
  | some _ => .ok () (h.setSlot frame name.lexeme (.assigned value))
  | none => fail name (.undefinedVariable name.lexeme) h

/-- Puts a new name into the innermost frame, unassigned if there is no value. -/
def define (e : Environment) (name : Token) (value : Option Value) : Access Unit := fun h =>
  match h.slot? e.inner name.lexeme with
  | some _ => fail name (.alreadyDefined name.lexeme) h
  | none => .ok () (h.setSlot e.inner name.lexeme ((value.map Slot.assigned).getD .unassigned))

/-- Binds a name that no text declares, whether the frame has it or not. -/
def bind (e : Environment) (name : String) (value : Value) : Access Unit := fun h =>
  .ok () (h.setSlot e.inner name (.assigned value))

/-- Reads a name from the nearest frame that has it. -/
def get (e : Environment) (name : Token) : Access Value := fun h =>
  match h.holder? e name.lexeme with
  | some frame => read frame name h
  | none => fail name (.undefinedVariable name.lexeme) h

def assign (e : Environment) (name : Token) (value : Value) : Access Unit := fun h =>
  match h.holder? e name.lexeme with
  | some frame => overwrite frame name value h
  | none => fail name (.undefinedVariable name.lexeme) h

/-- Reads a name from the frame a number of hops out. -/
def getAt (e : Environment) (distance : Nat) (name : Token) : Access Value :=
  match e.ancestor? distance with
  | some ancestor => read ancestor.inner name
  | none => fail name (.undefinedVariable name.lexeme)

def assignAt (e : Environment) (distance : Nat) (name : Token) (value : Value) : Access Unit :=
  match e.ancestor? distance with
  | some ancestor => overwrite ancestor.inner name value
  | none => fail name (.undefinedVariable name.lexeme)

/-- A new frame inside an environment. -/
def child (e : Environment) : Access Environment := fun h =>
  let (inner, h) := h.newFrame e.frames
  .ok inner h

def defineAll (e : Environment) : List (Token × Value) → Access Unit
  | [] => pure ()
  | (name, value) :: rest => do
    define e name (some value)
    defineAll e rest

def newObject (properties : Properties) : Access ObjectId := fun h =>
  let (id, h) := h.newObject properties
  .ok id h

def setProperty (object : ObjectId) (name : String) (value : Value) : Access Unit := fun h =>
  .ok () (h.setProperty object name value)

def newClosure (name : Option String) (function : Lambda) (environment : Environment)
    (isInitializer : Bool) : Access Closure := fun h =>
  .ok ⟨h.closures, name, function, environment, isInitializer⟩ { h with closures := h.closures + 1 }

/-- A new closure for the method, with one more frame that binds `this`. -/
def bindMethod (method : Closure) (receiver : Instance) : Access Closure := do
  let environment ← child method.environment
  bind environment "this" (.instance receiver)
  newClosure method.name method.function environment method.isInitializer

/-- A property of the instance itself, or else a method of its class, bound to it. -/
def instanceProperty (object : Instance) (name : Token) : Access Value := fun h =>
  match h.property? object.id name.lexeme with
  | some value => .ok value h
  | none =>
    match object.cls.method? name.lexeme with
    | some method => (Value.function <$> bindMethod method object) h
    | none => fail name (.undefinedProperty name.lexeme) h

/-- A property of the class itself, not of one that it inherits from. -/
def classProperty (cls : Class) (name : Token) : Access Value := fun h =>
  match h.property? cls.own.id name.lexeme with
  | some value => .ok value h
  | none => fail name (.undefinedProperty name.lexeme) h

/-- The methods of a class statement by name. The last of one name counts. -/
def methodTable (environment : Environment) :
    List FunctionDecl → Std.TreeMap String Closure → Access (Std.TreeMap String Closure)
  | [], table => pure table
  | .mk name function :: rest, table => do
    let lexeme := name.lexeme
    let closure ← newClosure (some lexeme) function environment (lexeme == "init")
    methodTable environment rest (table.insert lexeme closure)

def staticTable (environment : Environment) : List FunctionDecl → Properties → Access Properties
  | [], table => pure table
  | .mk name function :: rest, table => do
    let closure ← newClosure (some name.lexeme) function environment false
    staticTable environment rest (table.insert name.lexeme (.function closure))

end Access

end Lox
