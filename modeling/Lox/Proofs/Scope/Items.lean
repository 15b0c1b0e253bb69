import Lox.Proofs.Scope.Lexical

/-!
What a program does to the names of its scopes, and nothing else of it: where names are declared and
used, and which scopes there are, in the order in which the resolver walks the tree.
-/

namespace Lox

/-- A declaration, a use, or a scope with what stands in it. The scopes around the methods of a class
have a name that no text declares. -/
inductive ScopeItem where
  /-- A variable, function or class. -/
  | declare (name : Token)
  | parameter (name : Token)
  | use (role : Role) (ref : Reference)
  | scope (implicit : Option String) (body : List ScopeItem)

mutual

/-- The items of an expression within a class of the kind. In a class where they mean nothing `this` and
`super` use no name. -/
def Expr.items (cls : ClassKind) : Expr → List ScopeItem
  | .literal _ => []
  | .grouping inner => inner.items cls
  | .unary _ right => right.items cls
  | .binary left _ right => left.items cls ++ right.items cls
  | .binaryError _ right => right.items cls
  | .conditional condition thenBranch elseBranch =>
    condition.items cls ++ (thenBranch.items cls ++ elseBranch.items cls)
  | .variable ref => [.use .read ref]
  | .assign target value => value.items cls ++ [.use .target target]
  | .call callee _ arguments => callee.items cls ++ Expr.itemsAll cls arguments
  | .get object _ => object.items cls
  | .set object _ value => value.items cls ++ object.items cls
  | .this ref => if cls.thisFault? = none then [.use .this ref] else []
  | .super ref _ => if cls.superFault? = none then [.use .super ref] else []
  | .lambda function => function.items cls

def Expr.itemsAll (cls : ClassKind) : List Expr → List ScopeItem
  | [] => []
  | e :: rest => e.items cls ++ Expr.itemsAll cls rest

def Expr.items? (cls : ClassKind) : Option Expr → List ScopeItem
  | none => []
  | some e => e.items cls

def Stmt.items (cls : ClassKind) : Stmt → List ScopeItem
  | .expression e => e.items cls
  | .print e => e.items cls
  | .var name initializer => .declare name :: Expr.items? cls initializer
  | .block body => [.scope none (Stmt.itemsAll cls body)]
  | .ite condition thenBranch elseBranch =>
    condition.items cls ++ (thenBranch.items cls ++ Stmt.items? cls elseBranch)
  | .loop condition body increment =>
    condition.items cls ++ (body.items cls ++ Expr.items? cls increment)
  | .break _ => []
  | .continue _ => []
  | .breakError _ => []
  | .continueError _ => []
  | .function (.mk name function) => .declare name :: function.items cls
  | .return _ value => Expr.items? cls value
  | .class name superclass own statics =>
    let receiver := if superclass.isSome then ClassKind.subclass else .rootClass
    let methods := .scope (some "this") (FunctionDecl.itemsAll receiver own) ::
      FunctionDecl.itemsAll .staticMethod statics
    .declare name :: match superclass with
      | none => methods
      | some ref => [.use .read ref, .scope (some "super") methods]

def Stmt.items? (cls : ClassKind) : Option Stmt → List ScopeItem
  | none => []
  | some s => s.items cls

def Stmt.itemsAll (cls : ClassKind) : List Stmt → List ScopeItem
  | [] => []
  | s :: rest => s.items cls ++ Stmt.itemsAll cls rest

def FunctionDecl.itemsAll (cls : ClassKind) : List FunctionDecl → List ScopeItem
  | [] => []
  | .mk _ function :: rest => function.items cls ++ FunctionDecl.itemsAll cls rest

def Lambda.items (cls : ClassKind) : Lambda → List ScopeItem
  | .mk params body => [.scope none (params.map .parameter ++ Stmt.itemsAll cls body)]

end

def Program.items : Program → List ScopeItem
  | .statements body => Stmt.itemsAll .noClass body
  | .expression e => e.items .noClass

namespace ScopeItem

/-- The name that an item declares in the scope itself. -/
def declared? : ScopeItem → Option Token
  | declare name => some name
  | parameter name => some name
  | use _ _ => none
  | scope _ _ => none

/-- All that is declared in the scope itself. -/
def own (items : List ScopeItem) : List Token := items.filterMap declared?

def declares (x : String) (items : List ScopeItem) : Bool := (own items).any (·.lexeme == x)

mutual

/-- Whether a use that counts, in the item, refers to a name from before it. -/
def uses (counts : Role → Bool) (x : String) : ScopeItem → Bool
  | declare _ => false
  | parameter _ => false
  | use role ref => counts role && ref.name.lexeme == x
  | scope implicit body => implicit != some x && usesAll counts x body

/-- A use refers to the last declaration of the name that the scope has before it. -/
def usesAll (counts : Role → Bool) (x : String) : List ScopeItem → Bool
  | [] => false
  | item :: rest =>
    item.uses counts x || item.declared?.all (·.lexeme != x) && usesAll counts x rest

end

mutual

/-- The scopes in the order in which they end, each with what stands in it. -/
def scopes : ScopeItem → List (List ScopeItem)
  | declare _ => []
  | parameter _ => []
  | use _ _ => []
  | scope _ body => scopesAll body ++ [body]

def scopesAll : List ScopeItem → List (List ScopeItem)
  | [] => []
  | item :: rest => item.scopes ++ scopesAll rest

end

end ScopeItem

/-- A variable, function or class with what follows it in its scope. -/
structure LocalDeclaration where
  name : Token
  after : List ScopeItem

namespace LocalDeclaration

/-- Whether a use that counts refers to the declaration. -/
def isUsed (counts : Role → Bool) (d : LocalDeclaration) : Bool :=
  ScopeItem.usesAll counts d.name.lexeme d.after

/-- Whether its own scope declares the name again. -/
def isRepeated (d : LocalDeclaration) : Bool := ScopeItem.declares d.name.lexeme d.after

end LocalDeclaration

namespace ScopeItem

/-- The variables, functions and classes of the scope itself. -/
def declarations : List ScopeItem → List LocalDeclaration
  | [] => []
  | .declare name :: rest => ⟨name, rest⟩ :: declarations rest
  | .parameter _ :: rest => declarations rest
  | .use _ _ :: rest => declarations rest
  | .scope _ _ :: rest => declarations rest

/-- The declarations of a scope that are not repeated and that no use refers to, in their order. -/
def unused (counts : Role → Bool) (body : List ScopeItem) : List Token :=
  ((declarations body).filter fun d => !d.isUsed counts && !d.isRepeated).map LocalDeclaration.name

end ScopeItem

/-- The tokens whose name is one of those seen, or that of an earlier token. -/
def repeats (seen : String → Bool) : List Token → List Token
  | [] => []
  | t :: rest =>
    let later := repeats (fun x => t.lexeme == x || seen x) rest
    if seen t.lexeme then t :: later else later

section Lists

open ScopeItem

variable {counts : Role → Bool} {x : String}

theorem own_append (i j : List ScopeItem) : own (i ++ j) = own i ++ own j := List.filterMap_append

theorem declares_cons (item : ScopeItem) (rest : List ScopeItem) :
    declares x (item :: rest) = (!item.declared?.all (·.lexeme != x) || declares x rest) := by
  unfold declares own
  cases h : item.declared? with
  | none =>
    rw [List.filterMap_cons_none h]
    rfl
  | some name =>
    rw [List.filterMap_cons_some h, List.any_cons, Option.all_some, bne, Bool.not_not]

/-- Each method has a scope of its own. -/
theorem own_methods (cls : ClassKind) (decls : List FunctionDecl) :
    own (FunctionDecl.itemsAll cls decls) = [] := by
  induction decls with
  | nil => rfl
  | cons decl rest ih =>
    obtain ⟨name, params, body⟩ := decl
    exact ih

theorem scopesAll_append (i j : List ScopeItem) : scopesAll (i ++ j) = scopesAll i ++ scopesAll j := by
  induction i with
  | nil => rfl
  | cons item rest ih => rw [List.cons_append, scopesAll, scopesAll, ih, List.append_assoc]

theorem usesAll_append (i j : List ScopeItem) :
    usesAll counts x (i ++ j) = (usesAll counts x i || !declares x i && usesAll counts x j) := by
  induction i with
  | nil => rfl
  | cons item rest ih =>
    rw [List.cons_append, usesAll, usesAll, ih, declares_cons]
    cases item.declared?.all (·.lexeme != x)
    · simp
    · simp [Bool.or_assoc]

theorem repeats_append (seen : String → Bool) (ts us : List Token) : repeats seen (ts ++ us) =
    repeats seen ts ++ repeats (fun x => ts.any (·.lexeme == x) || seen x) us := by
  induction ts generalizing seen with
  | nil => rfl
  | cons t rest ih =>
    have hseen : (fun x => rest.any (·.lexeme == x) || (t.lexeme == x || seen x)) =
        fun x => (t :: rest).any (·.lexeme == x) || seen x := by
      funext x
      rw [List.any_cons, ← Bool.or_assoc, Bool.or_comm (rest.any _)]
    rw [List.cons_append, repeats, repeats, ih, hseen]
    split <;> rfl

end Lists

end Lox
