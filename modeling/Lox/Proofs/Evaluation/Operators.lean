import Lox.Evaluation

/-!
Operators ask nothing of the machine. What they give has no code in it, and it is the same for values that
look the same.
-/

namespace Lox

/-- Two values that look the same to operators and to `print`. Of a function, a class or an instance only
the number and the name are seen. -/
inductive Value.Resembles : Value → Value → Prop where
  | nil : Resembles .nil .nil
  | boolean (b : Bool) : Resembles (.boolean b) (.boolean b)
  | number (x : Float) : Resembles (.number x) (.number x)
  | string (s : String) : Resembles (.string s) (.string s)
  | native (f : Native) : Resembles (.native f) (.native f)
  | function {f f' : Closure} (id : f'.id = f.id) (name : f'.name = f.name) :
    Resembles (.function f) (.function f')
  | «class» {c c' : Class} (id : c'.own.id = c.own.id) (name : c'.name = c.name) :
    Resembles (.class c) (.class c')
  | «instance» {o o' : Instance} (id : o'.id = o.id) (name : o'.cls.name = o.cls.name) :
    Resembles (.instance o) (.instance o')

namespace Value.Resembles

variable {v v' u u' : Value}

theorem refl (v : Value) : v.Resembles v := by
  cases v with
  | nil => exact .nil
  | boolean b => exact .boolean b
  | number x => exact .number x
  | string s => exact .string s
  | native f => exact .native f
  | function f => exact .function rfl rfl
  | «class» c => exact .class rfl rfl
  | «instance» o => exact .instance rfl rfl

theorem isTruthy (h : v.Resembles v') : v'.isTruthy = v.isTruthy := by
  cases h <;> rfl

/-- Objects are compared by their numbers. -/
theorem equal (h : v.Resembles v') (hu : u.Resembles u') : v'.equal u' = v.equal u := by
  cases h with
  | function id =>
    cases hu with
    | function id' => simp only [Value.equal, id, id']
    | _ => rfl
  | «class» id =>
    cases hu with
    | «class» id' => simp only [Value.equal, id, id']
    | _ => rfl
  | «instance» id =>
    cases hu with
    | «instance» id' => simp only [Value.equal, id, id']
    | _ => rfl
  | _ => cases hu <;> rfl

theorem text (h : v.Resembles v') : v'.text = v.text := by
  cases h with
  | function _ name => simp only [Value.text, name]
  | «class» _ name => exact name
  | «instance» _ name => simp only [Value.text, name]
  | _ => rfl

end Value.Resembles

namespace Run

/-- Two actions that give the same value, which has no code in it, or that fail with the same fault, each
at its operator. -/
inductive Computes (operator operator' : Token) : Run Value → Run Value → Prop where
  | boolean (b : Bool) : Computes operator operator' (pure (.boolean b)) (pure (.boolean b))
  | number (x : Float) : Computes operator operator' (pure (.number x)) (pure (.number x))
  | string (s : String) : Computes operator operator' (pure (.string s)) (pure (.string s))
  | fails (fault : RuntimeFault) :
    Computes operator operator' (fail operator fault) (fail operator' fault)

variable {operator operator' : Token} {v v' u u' : Value}

theorem negate_computes (hv : v.Resembles v') :
    Computes operator operator' (negate operator v) (negate operator' v') := by
  cases hv with
  | number x => exact .number (-x)
  | _ => exact .fails .operandNotNumber

theorem add_computes (hv : v.Resembles v') (hu : u.Resembles u') :
    Computes operator operator' (add operator v u) (add operator' v' u') := by
  cases hv with
  | number a =>
    cases hu with
    | number b => exact .number (a + b)
    | _ => exact .fails .operandsNotAddable
  | string a =>
    cases hu with
    | string b => exact .string (a ++ b)
    | _ => exact .fails .operandsNotAddable
  | _ => exact .fails .operandsNotAddable

theorem afterLeft_eq (kind : TokenKind) (hv : v.Resembles v') : afterLeft kind v' = afterLeft kind v := by
  unfold afterLeft
  rw [hv.isTruthy]

section Kinds

variable (hkind : operator'.kind = operator.kind)
include hkind

theorem unary_computes (hv : v.Resembles v') :
    Computes operator operator' (unary operator v) (unary operator' v') := by
  unfold unary
  rw [hkind, hv.isTruthy]
  cases operator.kind with
  | minus => exact negate_computes hv
  | bang => exact .boolean _
  | _ => exact .fails .malformed

theorem numeric_computes (a b : Float) :
    Computes operator operator' (numeric operator a b) (numeric operator' a b) := by
  unfold numeric
  rw [hkind]
  cases operator.kind with
  | minus | star | slash => exact .number _
  | greater | greaterEqual | less | lessEqual => exact .boolean _
  | _ => exact .fails .malformed

theorem binary_computes (hv : v.Resembles v') (hu : u.Resembles u') :
    Computes operator operator' (binary operator v u) (binary operator' v' u') := by
  unfold binary
  rw [hkind, hv.equal hu]
  split
  · exact add_computes hv hu
  · exact .boolean _
  · exact .boolean _
  · cases hv with
    | number a =>
      cases hu with
      | number b => exact numeric_computes hkind a b
      | _ => exact .fails .operandsNotNumbers
    | _ => exact .fails .operandsNotNumbers

end Kinds

theorem unary_computes_self (operator : Token) (v : Value) :
    Computes operator operator (unary operator v) (unary operator v) := unary_computes rfl (.refl v)

theorem binary_computes_self (operator : Token) (v u : Value) :
    Computes operator operator (binary operator v u) (binary operator v u) :=
  binary_computes rfl (.refl v) (.refl u)

end Run

end Lox
