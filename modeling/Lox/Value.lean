import Lox.Syntax

namespace Lox

abbrev FrameId := Nat

/-- The number of a table of properties. -/
abbrev ObjectId := Nat

/-- The frames in which a piece of code looks names up, from the innermost outward. -/
structure Environment where
  inner : FrameId
  outer : List FrameId
deriving DecidableEq, Repr

namespace Environment

def frames (e : Environment) : List FrameId := e.inner :: e.outer

def enclosing? (e : Environment) : Option Environment :=
  match e.outer with
  | [] => none
  | frame :: outer => some ⟨frame, outer⟩

/-- The environment a number of hops out. -/
def ancestor? : Environment → Nat → Option Environment
  | e, 0 => some e
  | e, n + 1 => e.enclosing?.bind (·.ancestor? n)

/-- The ancestors of an environment are its frames in order. -/
theorem ancestor?_inner (e : Environment) (n : Nat) :
    (e.ancestor? n).map inner = e.frames[n]? := by
  induction n generalizing e with
  | zero => rfl
  | succ n ih =>
    unfold ancestor? enclosing?
    split
    next h => simp [frames, h]
    next frame outer h => simp [ih, frames, h]

end Environment

/-- The functions that the language comes with. -/
inductive Native where
  | clock
deriving DecidableEq, Repr

def Native.arity : Native → Nat
  | clock => 0

/-- A function with the environment that it was made in. Two closures are one when their numbers
agree. -/
structure Closure where
  id : Nat
  name : Option String
  function : Lambda
  environment : Environment
  isInitializer : Bool

/-- What one class statement makes. -/
structure ClassBody where
  id : ObjectId
  name : String
  methods : Std.TreeMap String Closure

/-- A class with the classes that it inherits from, its superclass first. -/
structure Class where
  own : ClassBody
  ancestors : List ClassBody

namespace Class

def name (c : Class) : String := c.own.name

def superclass? (c : Class) : Option Class :=
  match c.ancestors with
  | [] => none
  | own :: ancestors => some ⟨own, ancestors⟩

/-- The method of the nearest class that has one of the name. -/
def method? (c : Class) (name : String) : Option Closure :=
  (c.own :: c.ancestors).findSome? (·.methods[name]?)

/-- The method that a new instance runs first. -/
def initializer? (c : Class) : Option Closure := c.method? "init"

def arity (c : Class) : Nat := (c.initializer?.map (·.function.arity)).getD 0

end Class

structure Instance where
  id : ObjectId
  cls : Class

inductive Value where
  | nil
  | boolean (value : Bool)
  | number (value : Float)
  | string (text : String)
  | native (function : Native)
  | function (closure : Closure)
  | «class» (cls : Class)
  | «instance» (object : Instance)

def Literal.value : Literal → Value
  | number value => .number value
  | string text => .string text
  | boolean value => .boolean value
  | nil => .nil

namespace Value

/-- Only `nil` and `false` are not. -/
def isTruthy : Value → Bool
  | nil => false
  | boolean value => value
  | _ => true

/-- No value equals one of another type, and objects are equal only to themselves. -/
def equal : Value → Value → Bool
  | nil, nil => true
  | boolean a, boolean b => a == b
  | number a, number b => a == b
  | string a, string b => a == b
  | native a, native b => a == b
  | function a, function b => a.id == b.id
  | «class» a, «class» b => a.own.id == b.own.id
  | «instance» a, «instance» b => a.id == b.id
  | _, _ => false

def typeName : Value → String
  | nil => "nil"
  | boolean _ => "boolean"
  | number _ => "number"
  | string _ => "string"
  | native _ | function _ => "function"
  | «class» _ => "class"
  | «instance» _ => "instance"

/-- A printed whole number has no fraction. -/
def numberStyle : Decimal.Style := ⟨"NaN", "Infinity", ""⟩

/-- What `print` shows. -/
def text : Value → String
  | nil => "nil"
  | boolean value => if value then "true" else "false"
  | number value => Decimal.render numberStyle value
  | string text => text
  | native _ => "<native fn>"
  | function closure =>
    match closure.name with
    | some name => "<fn " ++ name ++ ">"
    | none => "<fn>"
  | «class» cls => cls.name
  | «instance» object => "instance of " ++ object.cls.name

end Value

end Lox
