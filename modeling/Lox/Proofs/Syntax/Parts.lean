import Lox.Proofs.Syntax.Making
import Lox.Proofs.Token.Numerals
import Lox.Proofs.Token.Writing

/-!
The expressions of a text with those that they are made of. Whatever is wrong with a text, the tokens in
them are words of it, and each one is of a kind that its place asks for.
-/

namespace Lox

mutual

/-- The expression and all that stand within it, also in the bodies of functions. -/
def Expr.parts : Expr → List Expr
  | .literal value => [.literal value]
  | .grouping inner => .grouping inner :: inner.parts
  | .unary operator right => .unary operator right :: right.parts
  | .binary left operator right => .binary left operator right :: (left.parts ++ right.parts)
  | .binaryError operator right => .binaryError operator right :: right.parts
  | .conditional condition thenBranch elseBranch =>
    .conditional condition thenBranch elseBranch ::
      (condition.parts ++ (thenBranch.parts ++ elseBranch.parts))
  | .variable ref => [.variable ref]
  | .assign target value => .assign target value :: value.parts
  | .call callee paren arguments =>
    .call callee paren arguments :: (callee.parts ++ Expr.partsAll arguments)
  | .get object name => .get object name :: object.parts
  | .set object name value => .set object name value :: (object.parts ++ value.parts)
  | .this ref => [.this ref]
  | .super ref method => [.super ref method]
  | .lambda function => .lambda function :: function.parts

def Expr.partsAll : List Expr → List Expr
  | [] => []
  | e :: rest => e.parts ++ Expr.partsAll rest

def Expr.parts? : Option Expr → List Expr
  | none => []
  | some e => e.parts

def Stmt.parts : Stmt → List Expr
  | .expression e => e.parts
  | .print e => e.parts
  | .var _ initializer => Expr.parts? initializer
  | .block body => Stmt.partsAll body
  | .ite condition thenBranch elseBranch =>
    condition.parts ++ (thenBranch.parts ++ Stmt.parts? elseBranch)
  | .loop condition body increment => condition.parts ++ (body.parts ++ Expr.parts? increment)
  | .break _ => []
  | .continue _ => []
  | .breakError _ => []
  | .continueError _ => []
  | .function (.mk _ function) => function.parts
  | .return _ value => Expr.parts? value
  | .class _ superclass own statics =>
    superclass.toList.map Expr.variable ++
      (FunctionDecl.partsAll own ++ FunctionDecl.partsAll statics)

def Stmt.parts? : Option Stmt → List Expr
  | none => []
  | some s => s.parts

def Stmt.partsAll : List Stmt → List Expr
  | [] => []
  | s :: rest => s.parts ++ Stmt.partsAll rest

def FunctionDecl.partsAll : List FunctionDecl → List Expr
  | [] => []
  | .mk _ function :: rest => function.parts ++ FunctionDecl.partsAll rest

def Lambda.parts : Lambda → List Expr
  | .mk _ body => Stmt.partsAll body

end

def Program.parts : Program → List Expr
  | .statements body => Stmt.partsAll body
  | .expression e => e.parts

namespace Expr

def number? : Expr → Option Float
  | .literal (.number x) => some x
  | _ => none

/-- The numbers in an expression. -/
def numbers (e : Expr) : List Float := e.parts.filterMap number?

/-- The tokens of the expression itself are such, and each is of a kind for its place. -/
inductive Made (T : Token → Prop) : Expr → Prop
  | nil : Made T (.literal .nil)
  | boolean (b) : Made T (.literal (.boolean b))
  | literal {t : Token} {value} (h : t.Among T [.number, .string]) (hvalue : t.literal = some value) :
      Made T (.literal value)
  | grouping (inner) : Made T (.grouping inner)
  | unary {operator : Token} (h : operator.Among T [.bang, .minus]) (right) :
      Made T (.unary operator right)
  | binary (left) {operator : Token} (h : operator.Among T binaryOperators) (right) :
      Made T (.binary left operator right)
  | binaryError {operator : Token} (h : operator.Among T Reader.danglingOperators) (right) :
      Made T (.binaryError operator right)
  | conditional (condition thenBranch elseBranch) :
      Made T (.conditional condition thenBranch elseBranch)
  | «variable» {ref : Reference} (h : ref.name.Among T [.identifier]) : Made T (.variable ref)
  | assign {target : Reference} (h : target.name.Among T [.identifier]) (value) :
      Made T (.assign target value)
  | call (callee) {paren : Token} (h : paren.Among T [.rightParen]) (arguments) :
      Made T (.call callee paren arguments)
  | get (object) {name : Token} (h : name.Among T [.identifier]) : Made T (.get object name)
  | set (object) {name : Token} (h : name.Among T [.identifier]) (value) :
      Made T (.set object name value)
  | this {ref : Reference} (h : ref.name.Among T [.this]) : Made T (.this ref)
  | super {ref : Reference} {method : Token} (h : ref.name.Among T [.super])
      (hmethod : method.Among T [.identifier]) : Made T (.super ref method)
  | lambda (function) : Made T (.lambda function)

end Expr

section Parts

variable {Q : Expr → Prop}

theorem Expr.forall_partsAll {es : List Expr} (h : ∀ e ∈ es, ∀ part ∈ e.parts, Q part) :
    ∀ part ∈ Expr.partsAll es, Q part := by
  induction es with
  | nil => exact List.forall_mem_nil _
  | cons e rest ih =>
    obtain ⟨hfirst, hothers⟩ := List.forall_mem_cons.1 h
    exact List.forall_mem_append.2 ⟨hfirst, ih hothers⟩

theorem Expr.forall_parts? {e? : Option Expr} (h : ∀ e ∈ e?, ∀ part ∈ e.parts, Q part) :
    ∀ part ∈ Expr.parts? e?, Q part := by
  cases e? with
  | none => exact List.forall_mem_nil _
  | some e => exact h e rfl

theorem Stmt.forall_parts? {s? : Option Stmt} (h : ∀ s ∈ s?, ∀ part ∈ s.parts, Q part) :
    ∀ part ∈ Stmt.parts? s?, Q part := by
  cases s? with
  | none => exact List.forall_mem_nil _
  | some s => exact h s rfl

theorem Stmt.forall_partsAll {body : List Stmt} (h : ∀ s ∈ body, ∀ part ∈ s.parts, Q part) :
    ∀ part ∈ Stmt.partsAll body, Q part := by
  induction body with
  | nil => exact List.forall_mem_nil _
  | cons s rest ih =>
    obtain ⟨hfirst, hothers⟩ := List.forall_mem_cons.1 h
    exact List.forall_mem_append.2 ⟨hfirst, ih hothers⟩

theorem FunctionDecl.forall_partsAll {decls : List FunctionDecl}
    (h : ∀ decl ∈ decls, ∀ part ∈ decl.function.parts, Q part) :
    ∀ part ∈ FunctionDecl.partsAll decls, Q part := by
  induction decls with
  | nil => exact List.forall_mem_nil _
  | cons decl rest ih =>
    obtain ⟨name, f⟩ := decl
    obtain ⟨hfirst, hothers⟩ := List.forall_mem_cons.1 h
    exact List.forall_mem_append.2 ⟨hfirst, ih hothers⟩

theorem Expr.mem_parts (e : Expr) : e ∈ e.parts := by
  cases e <;> simp [Expr.parts]

theorem Expr.mem_numbers {e part : Expr} {x : Float} (hpart : part ∈ e.parts)
    (hx : x ∈ part.number?) : x ∈ e.numbers := List.mem_filterMap.2 ⟨part, hpart, hx⟩

end Parts

/-- The expression and all in it are made of the tokens. -/
def Expr.MadeOf (T : Token → Prop) (e : Expr) : Prop := ∀ part ∈ e.parts, part.Made T

/-- Every expression in a tree is made of the tokens. -/
def madeOf (T : Token → Prop) : TreeProperty where
  expr e := ∀ part ∈ e.parts, part.MadeOf T
  stmt _ s := ∀ part ∈ s.parts, part.MadeOf T
  declaration _ s := ∀ part ∈ s.parts, part.MadeOf T
  function f := ∀ part ∈ f.parts, part.MadeOf T

section Making

variable {T : Token → Prop}

/-- An expression is made of the tokens if its own are such and those of all within it. -/
theorem madeOf_parts {e : Expr} {inner : List Expr} (h : e.Made T)
    (hinner : ∀ part ∈ inner, part.MadeOf T) (hparts : e.parts = e :: inner) :
    ∀ part ∈ e.parts, part.MadeOf T := by
  have he : e.MadeOf T := by
    unfold Expr.MadeOf
    rw [hparts]
    exact List.forall_mem_cons.2 ⟨h, fun part hpart => hinner part hpart part part.mem_parts⟩
  rw [hparts]
  exact List.forall_mem_cons.2 ⟨he, hinner⟩

theorem madeOf_leaf {e : Expr} (h : e.Made T) (hparts : e.parts = [e]) :
    ∀ part ∈ e.parts, part.MadeOf T := madeOf_parts h (List.forall_mem_nil _) hparts

theorem madeOf_composes : (madeOf T).Composes T where
  nil := madeOf_leaf .nil rfl
  boolean b := madeOf_leaf (.boolean b) rfl
  literal ht hvalue := madeOf_leaf (.literal ht hvalue) rfl
  grouping h := madeOf_parts (.grouping _) h rfl
  unary ho h := madeOf_parts (.unary ho _) h rfl
  binary hl ho hr := madeOf_parts (.binary _ ho _) (List.forall_mem_append.2 ⟨hl, hr⟩) rfl
  binaryError ho h := madeOf_parts (.binaryError ho _) h rfl
  conditional hc ht hf := madeOf_parts (.conditional _ _ _)
    (List.forall_mem_append.2 ⟨hc, List.forall_mem_append.2 ⟨ht, hf⟩⟩) rfl
  «variable» h := madeOf_leaf (.variable h) rfl
  assign id ref value htarget h := by
    have hname : (Reference.mk id ref.name).name.Among T [.identifier] := by
      cases htarget _ (Expr.mem_parts _) _ (Expr.mem_parts _) with
      | «variable» hname => exact hname
    exact madeOf_parts (.assign hname value) h rfl
  call hc hp ha := madeOf_parts (.call _ hp _)
    (List.forall_mem_append.2 ⟨hc, Expr.forall_partsAll ha⟩) rfl
  get h hn := madeOf_parts (.get _ hn) h rfl
  set {object name value} hg hv := by
    have hname : name.Among T [.identifier] := by
      cases hg _ (Expr.mem_parts _) _ (Expr.mem_parts _) with
      | get _ hname => exact hname
    exact madeOf_parts (.set object hname value)
      (List.forall_mem_append.2 ⟨(List.forall_mem_cons.1 hg).2, hv⟩) rfl
  this h := madeOf_leaf (.this h) rfl
  super h hm := madeOf_leaf (.super h hm) rfl
  lambda h := madeOf_parts (.lambda _) h rfl
  expression _ _ h := h
  print _ _ h := h
  block h := Stmt.forall_partsAll h
  ite hc ht hf := List.forall_mem_append.2 ⟨hc, List.forall_mem_append.2 ⟨ht, Stmt.forall_parts? hf⟩⟩
  loop _ _ _ _ hc hb hi :=
    List.forall_mem_append.2 ⟨hc, List.forall_mem_append.2 ⟨hb, Expr.forall_parts? hi⟩⟩
  «break» _ := List.forall_mem_nil _
  «continue» _ := List.forall_mem_nil _
  breakError _ := List.forall_mem_nil _
  continueError _ := List.forall_mem_nil _
  «return» _ _ _ h := Expr.forall_parts? h
  statement h := h
  var _ _ _ h := Expr.forall_parts? h
  named _ _ _ h := h
  «class» _ _ _ _ _ hsuperclass hown hstatics := by
    refine List.forall_mem_append.2 ⟨List.forall_mem_map.2 fun ref href => ?_, ?_⟩
    · exact hsuperclass ref (Option.mem_toList.1 href) _ (Expr.mem_parts _)
    · exact List.forall_mem_append.2
        ⟨FunctionDecl.forall_partsAll hown, FunctionDecl.forall_partsAll hstatics⟩
  body _ _ h := Stmt.forall_partsAll h

theorem parse_madeOf (tokens : List Token) (allowExpression : Bool) (nextId : NodeId)
    (hT : ∀ t ∈ (Cursor.ofTokens tokens nextId).rest, T t) :
    ∀ e ∈ (parse tokens allowExpression nextId).program.parts, e.MadeOf T := by
  have hmade := parse_makes madeOf_composes tokens allowExpression nextId hT
  generalize (parse tokens allowExpression nextId).program = p at hmade ⊢
  cases p with
  | statements body => exact Stmt.forall_partsAll hmade
  | expression e => exact hmade

end Making

/-- The parser makes the expression of the source, by itself or in another one or in a statement. -/
def Expr.ReadFrom (source : String) (e : Expr) : Prop :=
  ∃ allowExpression nextId,
    e ∈ (parse (tokensOf (scan source)) allowExpression nextId).program.parts

/-- The words of a source are all that its expressions are made of. -/
theorem Expr.ReadFrom.madeOf {source : String} {e : Expr} (h : e.ReadFrom source) :
    e.MadeOf Token.Written := by
  obtain ⟨allowExpression, nextId, hmem⟩ := h
  refine parse_madeOf _ allowExpression nextId (fun t ht => ?_) e hmem
  rw [tokensOf_scan, rest_ofTokens (wordsOf_endFree source) rfl] at ht
  exact wordsOf_written source t ht

end Lox
