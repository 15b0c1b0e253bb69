import Lox.Proofs.Syntax.Keeping

/-!
What holds of everything that the parser makes, whatever is wrong with a text: each property that holds
of a tree if it holds of the parts that the tree is put together from.
-/

namespace Lox

/-- Properties of the kinds of trees. A statement may stand in a loop or not, and a declaration is a
statement that may declare something. -/
structure TreeProperty where
  expr : Expr → Prop
  stmt : (inLoop : Bool) → Stmt → Prop
  declaration : (inLoop : Bool) → Stmt → Prop
  function : Lambda → Prop

def TreeProperty.program (P : TreeProperty) : Program → Prop
  | .statements body => ∀ s ∈ body, P.declaration false s
  | .expression e => P.expr e

/-- The properties hold of what the grammar puts together from parts that have them, and from tokens. A
loop begins with its body, and a function body stands in no loop. What is assigned to has been read as an
expression before. -/
structure TreeProperty.Composes (T : Token → Prop) (P : TreeProperty) : Prop where
  nil : P.expr (.literal .nil)
  boolean : ∀ b, P.expr (.literal (.boolean b))
  literal : ∀ {t : Token} {value}, t.Among T [.number, .string] → t.literal = some value →
    P.expr (.literal value)
  grouping : ∀ {e}, P.expr e → P.expr (.grouping e)
  unary : ∀ {operator : Token} {e}, operator.Among T [.bang, .minus] → P.expr e →
    P.expr (.unary operator e)
  binary : ∀ {left} {operator : Token} {right}, P.expr left → operator.Among T binaryOperators →
    P.expr right → P.expr (.binary left operator right)
  binaryError : ∀ {operator : Token} {e}, operator.Among T Reader.danglingOperators → P.expr e →
    P.expr (.binaryError operator e)
  conditional : ∀ {condition thenBranch elseBranch}, P.expr condition → P.expr thenBranch →
    P.expr elseBranch → P.expr (.conditional condition thenBranch elseBranch)
  «variable» : ∀ {ref : Reference}, ref.name.Among T [.identifier] → P.expr (.variable ref)
  assign : ∀ id {ref : Reference} {value}, P.expr (.variable ref) → P.expr value →
    P.expr (.assign ⟨id, ref.name⟩ value)
  call : ∀ {callee} {paren : Token} {arguments}, P.expr callee → paren.Among T [.rightParen] →
    (∀ e ∈ arguments, P.expr e) → P.expr (.call callee paren arguments)
  get : ∀ {object} {name : Token}, P.expr object → name.Among T [.identifier] → P.expr (.get object name)
  set : ∀ {object name value}, P.expr (.get object name) → P.expr value →
    P.expr (.set object name value)
  this : ∀ {ref : Reference}, ref.name.Among T [.this] → P.expr (.this ref)
  super : ∀ {ref : Reference} {method : Token}, ref.name.Among T [.super] →
    method.Among T [.identifier] → P.expr (.super ref method)
  lambda : ∀ {f}, P.function f → P.expr (.lambda f)
  expression : ∀ inLoop {e}, P.expr e → P.stmt inLoop (.expression e)
  print : ∀ inLoop {e}, P.expr e → P.stmt inLoop (.print e)
  block : ∀ {inLoop body}, (∀ s ∈ body, P.declaration inLoop s) → P.stmt inLoop (.block body)
  ite : ∀ {inLoop condition thenBranch elseBranch}, P.expr condition → P.stmt inLoop thenBranch →
    (∀ s ∈ elseBranch, P.stmt inLoop s) → P.stmt inLoop (.ite condition thenBranch elseBranch)
  loop : ∀ inLoop {condition body increment}, P.expr condition → P.stmt true body →
    (∀ e ∈ increment, P.expr e) → P.stmt inLoop (.loop condition body increment)
  «break» : ∀ keyword, P.stmt true (.break keyword)
  «continue» : ∀ keyword, P.stmt true (.continue keyword)
  breakError : ∀ keyword, P.stmt false (.breakError keyword)
  continueError : ∀ keyword, P.stmt false (.continueError keyword)
  «return» : ∀ inLoop keyword {value}, (∀ e ∈ value, P.expr e) → P.stmt inLoop (.return keyword value)
  statement : ∀ {inLoop s}, P.stmt inLoop s → P.declaration inLoop s
  var : ∀ inLoop name {initializer}, (∀ e ∈ initializer, P.expr e) →
    P.declaration inLoop (.var name initializer)
  named : ∀ inLoop name {f}, P.function f → P.declaration inLoop (.function (.mk name f))
  «class» : ∀ inLoop name {superclass own statics}, (∀ ref ∈ superclass, P.expr (.variable ref)) →
    (∀ decl ∈ own, P.function decl.function) → (∀ decl ∈ statics, P.function decl.function) →
    P.declaration inLoop (.class name superclass own statics)
  body : ∀ params {body}, (∀ s ∈ body, P.declaration false s) → P.function (.mk params body)

namespace TreeProperty

open Account

variable {T : Token → Prop} {P : TreeProperty}

/-- What is known of the parts that have been read. -/
def account (T : Token → Prop) : Account T where
  Origin := Unit
  Entry := Prop
  empty := True
  beside := And
  origin _ := ()
  Holds _ c a := (∀ t ∈ c.rest, T t) ∧ a
  empty_beside := true_and
  beside_empty := and_true
  beside_assoc _ _ _ := propext and_assoc
  words h := h.1
  left h := ⟨h.1, h.2.1⟩
  start h := ⟨h.1, trivial⟩
  append h h' := ⟨h'.1, h.2, h'.2⟩
  pass dropped _ hr h := ⟨fun t ht => h.1 t (hr ▸ List.mem_append_right dropped ht), h.2⟩
  report _ _ h := h
  number h := h

/-- Nothing is to be known of names. -/
def entries (T : Token → Prop) (P : TreeProperty) : (account T).Entries where
  expr := P.expr
  stmt := P.stmt
  declaration := P.declaration
  loopBody := P.stmt true
  function := P.function
  method _ _ decl := P.function decl.function
  superclass ref := P.expr (.variable ref)
  name _ := True
  parameter _ := True
  program := P.program

theorem turns_of {a b : Prop} (h : a → b) : (account T).Turns a b := fun _ _ hc => ⟨hc.1, h hc.2⟩

theorem optional_iff {α : Type} {f : α → Prop} {a? : Option α} :
    (account T).optional f a? ↔ ∀ a ∈ a?, f a := by
  cases a? with
  | none => exact ⟨nofun, fun _ => trivial⟩
  | some a => exact ⟨fun h b hb => Option.some.inj hb ▸ h, fun h => h a rfl⟩

theorem all_iff {α : Type} {f : α → Prop} {as : List α} :
    (account T).all f as ↔ ∀ a ∈ as, f a := by
  induction as with
  | nil => exact ⟨nofun, fun _ => trivial⟩
  | cons a rest ih => exact (and_congr_right fun _ => ih).trans List.forall_mem_cons.symm

/-- The property follows from the parts of each tree, so it may be kept while the tree is read. -/
theorem Composes.entries (hP : P.Composes T) : (P.entries T).Composes where
  name _ := takes_empty _
  parameter _ := takes_empty _
  nil := turns_of fun _ => hP.nil
  boolean b := turns_of fun _ => hP.boolean b
  literal ht hvalue := turns_of fun _ => hP.literal ht hvalue
  grouping _ := turns_of hP.grouping
  unary _ ho := turns_of (hP.unary ho)
  binary _ _ _ ho := turns_of fun h => hP.binary h.1 ho h.2
  binaryError _ ho := (turns_of (hP.binaryError ho)).reports _ _
  conditional _ _ _ := turns_of fun h => hP.conditional h.1.1 h.1.2 h.2
  «variable» hname := .of_turns fun _ => turns_of fun _ => hP.variable hname
  assign _ _ := .of_turns fun id => turns_of fun h => hP.assign id h.1 h.2
  call _ _ _ hparen := turns_of fun h => hP.call h.1 hparen (all_iff.1 h.2)
  get _ _ hname := turns_of fun h => hP.get h hname
  set _ _ _ := turns_of fun h => hP.set h.1 h.2
  this hkeyword := .of_turns fun _ => turns_of fun _ => hP.this hkeyword
  super hkeyword hmethod := .of_turns fun _ => turns_of fun _ => hP.super hkeyword hmethod
  lambda _ := turns_of hP.lambda
  expression inLoop _ := turns_of (hP.expression inLoop)
  print inLoop _ := turns_of (hP.print inLoop)
  block _ _ := turns_of fun h => hP.block (all_iff.1 h)
  ite _ _ _ _ := turns_of fun h => hP.ite h.1.1 h.1.2 (optional_iff.1 h.2)
  loopBody _ := .refl _
  loop inLoop _ _ _ := turns_of fun h => hP.loop inLoop h.1.1 h.2 (optional_iff.1 h.1.2)
  initialized inLoop _ _ _ _ := turns_of fun h =>
    hP.block (List.forall_mem_cons.2 ⟨h.1.1.1, List.forall_mem_singleton.2
      (hP.statement (hP.loop inLoop h.1.1.2 h.2 (optional_iff.1 h.1.2)))⟩)
  «break» keyword := turns_of fun _ => hP.break keyword
  «continue» keyword := turns_of fun _ => hP.continue keyword
  breakError keyword := (turns_of fun _ => hP.breakError keyword).reports _ _
  continueError keyword := (turns_of fun _ => hP.continueError keyword).reports _ _
  «return» inLoop keyword _ := turns_of fun h => hP.return inLoop keyword (optional_iff.1 h)
  statement _ _ := turns_of hP.statement
  var inLoop name _ := turns_of fun h => hP.var inLoop name (optional_iff.1 h.2)
  named inLoop name _ := turns_of fun h => hP.named inLoop name h.2
  superclass hname := .of_turns fun _ => turns_of fun _ => hP.variable hname
  method _ _ _ _ := turns_of fun h => h.2
  statics _ _ _ _ := turns_of fun h => ⟨h.2.1, h.1, h.2.2⟩
  «class» inLoop name _ _ _ := turns_of fun h =>
    hP.class inLoop name (optional_iff.1 h.1.2) (all_iff.1 h.2.1) (all_iff.1 h.2.2)
  body params _ := turns_of fun h => hP.body params (all_iff.1 h.2)
  statements _ := turns_of all_iff.1
  single _ := .refl _

end TreeProperty

/-- The property holds of what the parser makes of the tokens. -/
theorem parse_makes {T : Token → Prop} {P : TreeProperty} (hP : P.Composes T) (tokens : List Token)
    (allowExpression : Bool) (nextId : NodeId) (hT : ∀ t ∈ (Cursor.ofTokens tokens nextId).rest, T t) :
    P.program (parse tokens allowExpression nextId).program := by
  obtain ⟨_, _, hprogram⟩ :=
    Account.parse_keeps hP.entries tokens allowExpression nextId ⟨hT, trivial⟩
  exact hprogram.2

end Lox
