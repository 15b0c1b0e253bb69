import Lox.Proofs.Syntax.Locality
import Lox.Proofs.Syntax.Tape

/-!
The readers of the grammar as scripts: terms over the elementary readers. A script can be read from a
cursor, and it can be walked on a vector of tokens. The grammar reads tokens in no other way, so that
what holds of the elementary walks holds of reading a program.
-/

namespace Lox

inductive Script : Type → Type 1 where
  | pure {α : Type} (a : α) : Script α
  | bind {α β : Type} (first : Script α) (next : α → Script β) : Script β
  | giveUp {α : Type} : Script α
  | outOfFuel {α : Type} : Script α
  | recovering {α : Type} (construct : Script α) : Script (Option α)
  | here : Script Token
  | sees (kind : TokenKind) : Script Bool
  | ended (closers : List TokenKind) : Script Bool
  | accept (kinds : List TokenKind) : Script (Option Token)
  | seesNamedFunction : Script Bool
  | report (t : Token) (fault : SyntaxFault) : Script Unit
  | reference (name : Token) : Script Reference

namespace Script

variable {α β : Type}

def read {α : Type} : Script α → Reader α
  | .pure a => Pure.pure a
  | .bind first next => first.read >>= fun a => (next a).read
  | .giveUp => throw .syntaxError
  | .outOfFuel => Reader.outOfFuel
  | .recovering construct => Reader.recovering construct.read
  | .here => Reader.here
  | .sees kind => Reader.sees kind
  | .ended closers => Reader.ended closers
  | .accept kinds => Reader.accept kinds
  | .seesNamedFunction => Reader.seesNamedFunction
  | .report t fault => Reader.report t fault
  | .reference name => Reader.reference name

def walk {α : Type} : Script α → Walker α
  | .pure a => Pure.pure a
  | .bind first next => first.walk >>= fun a => (next a).walk
  | .giveUp => throw .syntaxError
  | .outOfFuel => throw .outOfFuel
  | .recovering construct => Walker.recovering construct.walk
  | .here => Walker.peek
  | .sees kind => Walker.check kind
  | .ended closers => Walker.ended closers
  | .accept kinds => Walker.accept kinds
  | .seesNamedFunction => Walker.seesNamedFunction
  | .report t fault => Walker.report t fault
  | .reference name => Walker.reference name

/-- Walking a script on a vector comes to what reading it comes to. No access misses the vector. -/
theorem walk_simulates {tokens : Array Token} {first : Nat} {α : Type} (s : Script α) :
    Walker.Simulates tokens first s.walk s.read := by
  induction s with
  | pure a => exact .pure
  | bind _ _ hfirst hnext => exact hfirst.bind hnext
  | giveUp => exact fun t c h => ⟨t, rfl, h⟩
  | outOfFuel => exact fun t c h => ⟨t, rfl, h⟩
  | recovering _ ih => exact ih.recovering
  | here => exact .peek
  | sees kind => exact .check kind
  | ended closers => exact .ended closers
  | accept kinds => exact .accept kinds
  | seesNamedFunction => exact .seesNamedFunction
  | report t fault => exact .report t fault
  | reference name => exact .reference name

end Script

/-- A script of a reader. -/
structure Scripted {α : Type} (p : Reader α) where
  script : Script α
  read_eq : script.read = p

namespace Scripted

variable {α β : Type} {n : Nat} {p : Reader α} {kind : TokenKind} {kinds : List TokenKind}

def pure (a : α) : Scripted (pure a) := ⟨.pure a, rfl⟩

def bind {f : α → Reader β} (h : Scripted p) (hf : ∀ a, Scripted (f a)) : Scripted (p >>= f) where
  script := .bind h.script fun a => (hf a).script
  read_eq := by
    have hnext : (fun a => (hf a).script.read) = f := funext fun a => (hf a).read_eq
    rw [Script.read, h.read_eq, hnext]

def map (f : α → β) (h : Scripted p) : Scripted (f <$> p) := h.bind fun a => pure (f a)

def recovering (h : Scripted p) : Scripted (Reader.recovering p) where
  script := .recovering h.script
  read_eq := by rw [Script.read, h.read_eq]

def outOfFuel : Scripted (Reader.outOfFuel : Reader α) := ⟨.outOfFuel, rfl⟩

def sees : Scripted (Reader.sees kind) := ⟨.sees kind, rfl⟩

def ended : Scripted (Reader.ended kinds) := ⟨.ended kinds, rfl⟩

def here : Scripted Reader.here := ⟨.here, rfl⟩

def accept : Scripted (Reader.accept kinds) := ⟨.accept kinds, rfl⟩

def seesNamedFunction : Scripted Reader.seesNamedFunction := ⟨.seesNamedFunction, rfl⟩

def reference (name : Token) : Scripted (Reader.reference name) := ⟨.reference name, rfl⟩

def report (t : Token) (fault : SyntaxFault) : Scripted (Reader.report t fault) :=
  ⟨.report t fault, rfl⟩

def reportHere (fault : SyntaxFault) : Scripted (Reader.reportHere fault) :=
  ⟨.bind .here fun t => .report t fault, rfl⟩

def missing (what : Expected) : Scripted (Reader.missing what : Reader α) :=
  ⟨.bind (.bind .here fun t => .report t (.missing what)) fun _ => .giveUp, rfl⟩

/-- The next token decides what is read. -/
def choice {f : Option Token → Reader β} (hnone : Scripted (f none))
    (hsome : ∀ t, Scripted (f (some t))) : Scripted (Reader.accept kinds >>= f) :=
  accept.bind fun
    | none => hnone
    | some t => hsome t

/-- A test decides what is read. -/
def test {p : Reader Bool} {f : Bool → Reader β} (h : Scripted p) (htrue : Scripted (f true))
    (hfalse : Scripted (f false)) : Scripted (p >>= f) :=
  h.bind fun
    | true => htrue
    | false => hfalse

def ite {c : Prop} [Decidable c] {q : Reader α} (hp : Scripted p) (hq : Scripted q) :
    Scripted (if c then p else q) :=
  if hc : c then ⟨hp.script, by rw [if_pos hc, hp.read_eq]⟩
  else ⟨hq.script, by rw [if_neg hc, hq.read_eq]⟩

def expect (kind : TokenKind) (what : Expected) : Scripted (Reader.expect kind what) :=
  choice (missing what) pure

section Lists

def listed {tooMany : SyntaxFault} {item : Reader α} (h : Scripted item) :
    ∀ n count, Scripted (Reader.listed tooMany item n count)
  | 0, _ => outOfFuel
  | n + 1, count =>
    have tail : Scripted (Reader.itemAndOthers item (Reader.listed tooMany item n (count + 1))) :=
      h.bind fun _ => choice (pure _) fun _ => (listed h n (count + 1)).bind fun _ => pure _
    ⟨(if Reader.maxListed ≤ count then
        (reportHere tooMany).script.bind fun _ => tail.script else tail.script), by
      by_cases hcount : Reader.maxListed ≤ count
      · rw [if_pos hcount, Reader.listed_full hcount, Script.read, (reportHere tooMany).read_eq,
          tail.read_eq]
      · rw [if_neg hcount, Reader.listed_more hcount, tail.read_eq]⟩

def listedOrNone {tooMany : SyntaxFault} {item : Reader α} (h : Scripted item) :
    Scripted (Reader.listedOrNone n tooMany item) :=
  sees.test (pure []) (h.listed n 0)

def operands {operand : Reader Expr} (h : Scripted operand) :
    ∀ n left, Scripted (Reader.operands kinds operand n left)
  | 0, _ => outOfFuel
  | n + 1, _ => choice (pure _) fun _ => h.bind fun _ => operands h n _

def leftAssociative {operand : Reader Expr} (h : Scripted operand) :
    Scripted (Reader.leftAssociative n kinds operand) :=
  h.bind fun left => operands h n left

def levels {operand : Reader Expr} (h : Scripted operand) :
    ∀ operators : List (List TokenKind),
      Scripted (operators.foldr (Reader.leftAssociative n) operand)
  | [] => h
  | _ :: operators => leftAssociative (levels h operators)

def binary {operand : Reader Expr} (h : Scripted operand) : Scripted (Reader.binary n operand) :=
  levels h Reader.operatorLevels

end Lists

section Productions

variable {expression : Reader Expr} {declarations : Reader (List Stmt)} {body : Reader Stmt}

def series (h : Scripted expression) : Scripted (Reader.series n expression) :=
  leftAssociative (choice h fun _ => h.bind fun _ => (report _ _).bind fun _ => pure _)

def callTail (h : Scripted expression) : ∀ n callee, Scripted (Reader.callTail expression n callee)
  | 0, _ => outOfFuel
  | n + 1, _ =>
    choice (pure _) fun _ => ite
      (h.listedOrNone.bind fun _ => (expect _ _).bind fun _ => callTail h n _)
      ((expect _ _).bind fun _ => callTail h n _)

def lambda {role : FunctionRole} (h : Scripted declarations) :
    Scripted (Reader.lambda n role declarations) :=
  (expect _ _).listedOrNone.bind fun _ => (expect _ _).bind fun _ => (expect _ _).bind fun _ =>
    h.bind fun _ => (expect _ _).bind fun _ => pure _

def function {role : FunctionRole} (h : Scripted declarations) :
    Scripted (Reader.function n role declarations) :=
  (expect _ _).bind fun _ => (expect _ _).bind fun _ => h.lambda.bind fun _ => pure _

def methods (h : Scripted declarations) : ∀ n, Scripted (Reader.methods declarations n)
  | 0 => outOfFuel
  | n + 1 =>
    ended.test (pure _) (choice
      (h.function.bind fun _ => (methods h n).bind fun _ => pure _)
      fun _ => h.function.bind fun _ => (methods h n).bind fun _ => pure _)

def superclass : Scripted Reader.superclass :=
  choice (pure _) fun _ => (expect _ _).bind fun _ => (reference _).bind fun _ => pure _

def classDeclaration (h : Scripted declarations) :
    Scripted (Reader.classDeclaration n declarations) :=
  (expect _ _).bind fun _ => superclass.bind fun _ => (expect _ _).bind fun _ =>
    (h.methods n).bind fun _ => (expect _ _).bind fun _ => pure _

def varDeclaration (h : Scripted expression) : Scripted (Reader.varDeclaration expression) :=
  (expect _ _).bind fun _ => choice
    ((pure none).bind fun _ => (expect _ _).bind fun _ => pure _)
    fun _ => (h.map some).bind fun _ => (expect _ _).bind fun _ => pure _

def unlessSees (h : Scripted expression) : Scripted (Reader.unlessSees kind expression) :=
  sees.test (pure none) (h.map some)

def expressionStatement (h : Scripted expression) :
    Scripted (Reader.expressionStatement n expression) :=
  h.series.bind fun _ => (expect _ _).bind fun _ => pure _

def printStatement (h : Scripted expression) : Scripted (Reader.printStatement n expression) :=
  h.series.bind fun _ => (expect _ _).bind fun _ => pure _

def returnStatement {keyword : Token} (h : Scripted expression) :
    Scripted (Reader.returnStatement keyword expression) :=
  h.unlessSees.bind fun _ => (expect _ _).bind fun _ => pure _

def breakStatement {keyword : Token} {inLoop : Bool} :
    Scripted (Reader.breakStatement keyword inLoop) :=
  (expect _ _).bind fun _ => ite (pure _) ((report _ _).bind fun _ => pure _)

def continueStatement {keyword : Token} {inLoop : Bool} :
    Scripted (Reader.continueStatement keyword inLoop) :=
  (expect _ _).bind fun _ => ite (pure _) ((report _ _).bind fun _ => pure _)

def forInitializer (h : Scripted expression) : Scripted (Reader.forInitializer n expression) :=
  choice (h.expressionStatement.map some) fun _ => ite (pure _) (h.varDeclaration.map some)

def forStatement (h : Scripted expression) (hb : Scripted body) :
    Scripted (Reader.forStatement n expression body) :=
  (expect _ _).bind fun _ => h.forInitializer.bind fun _ => h.unlessSees.bind fun _ =>
    (expect _ _).bind fun _ => h.unlessSees.bind fun _ => (expect _ _).bind fun _ =>
      hb.bind fun _ => pure _

def whileStatement (h : Scripted expression) (hb : Scripted body) :
    Scripted (Reader.whileStatement expression body) :=
  (expect _ _).bind fun _ => h.bind fun _ => (expect _ _).bind fun _ => hb.bind fun _ => pure _

def ifStatement (h : Scripted expression) (hb : Scripted body) :
    Scripted (Reader.ifStatement expression body) :=
  (expect _ _).bind fun _ => h.bind fun _ => (expect _ _).bind fun _ => hb.bind fun _ =>
    choice (pure _) fun _ => hb.bind fun _ => pure _

def primaryFrom (h : Scripted expression) (hd : Scripted declarations) (t : Token) :
    Scripted (Reader.primaryFrom n expression declarations t) := by
  unfold Reader.primaryFrom
  split
  · exact pure _
  · exact pure _
  · exact pure _
  · exact pure _
  · exact (expect _ _).bind fun _ => (expect _ _).bind fun _ => (reference _).bind fun _ => pure _
  · exact (reference _).map _
  · exact (reference _).map _
  · exact (expect _ _).bind fun _ => hd.lambda.bind fun _ => pure _
  · exact h.bind fun _ => (expect _ _).bind fun _ => pure _
  · exact pure _

def assignment {target : Expr} {equals : Token} {value : Expr} :
    Scripted (Reader.assignment target equals value) := by
  unfold Reader.assignment
  split
  · exact (reference _).bind fun _ => pure _
  · exact pure _
  · exact (report _ _).bind fun _ => pure _

end Productions

end Scripted

/-- Scripts of the readers that call one another. -/
structure ScriptedGrammar (n : Nat) where
  expression : Scripted (Reader.expression n)
  conditional : Scripted (Reader.conditional n)
  unary : Scripted (Reader.unary n)
  declarations : ∀ inLoop closers, Scripted (Reader.declarations n inLoop closers)
  declaration : ∀ inLoop, Scripted (Reader.declaration n inLoop)
  statement : ∀ inLoop, Scripted (Reader.statement n inLoop)

namespace ScriptedGrammar

open Scripted

variable {n : Nat}

def statement_succ (g : ScriptedGrammar n) (inLoop : Bool) :
    Scripted (Reader.statement (n + 1) inLoop) := by
  unfold Reader.statement
  refine choice g.expression.expressionStatement fun t => ?_
  simp only
  split
  · exact g.expression.forStatement (g.statement true)
  · exact g.expression.ifStatement (g.statement inLoop)
  · exact g.expression.whileStatement (g.statement true)
  · exact g.expression.returnStatement
  · exact breakStatement
  · exact continueStatement
  · exact (g.declarations _ _).bind fun _ => (expect _ _).bind fun _ => pure _
  · exact g.expression.printStatement

def succ (g : ScriptedGrammar n) : ScriptedGrammar (n + 1) where
  expression := g.conditional.bind fun _ => choice (pure _) fun _ =>
    g.expression.bind fun _ => assignment
  conditional := g.unary.binary.bind fun _ => choice (pure _) fun _ =>
    g.conditional.bind fun _ => (expect _ _).bind fun _ => g.conditional.bind fun _ => pure _
  unary := choice
    (choice (missing _) fun t =>
      (primaryFrom g.expression (g.declarations _ _) t).bind fun _ => g.expression.callTail _ _)
    fun _ => g.unary.bind fun _ => pure _
  declarations := fun inLoop closers => ended.test (pure _)
    ((g.declaration inLoop).recovering.bind fun _ =>
      (g.declarations inLoop closers).bind fun _ => pure _)
  declaration := fun inLoop => seesNamedFunction.test
    (accept.bind fun _ => (g.declarations _ _).function.bind fun _ => pure _)
    (choice (g.statement inLoop) fun _ => ite
      (g.declarations _ _).classDeclaration g.expression.varDeclaration)
  statement := g.statement_succ

def zero : ScriptedGrammar 0 :=
  ⟨outOfFuel, outOfFuel, outOfFuel, fun _ _ => outOfFuel, fun _ => outOfFuel, fun _ => outOfFuel⟩

end ScriptedGrammar

def scriptedGrammar : ∀ n, ScriptedGrammar n
  | 0 => .zero
  | n + 1 => (scriptedGrammar n).succ

namespace Scripted

def entry (n : Nat) : Scripted (Reader.entry n) :=
  here.bind fun _ => seesNamedFunction.bind fun _ => ite
    (((scriptedGrammar n).declaration _).bind fun _ => pure _)
    ((scriptedGrammar n).expression.series.bind fun _ => choice
      (ended.test (pure _) (missing _)) fun _ => pure _)

def program (n : Nat) : ∀ allowExpression, Scripted (Reader.program n allowExpression)
  | false => ((scriptedGrammar n).declarations _ _).bind fun _ => pure _
  | true =>
    ended.test (((scriptedGrammar n).declarations _ _).bind fun _ => pure _)
      ((entry n).recovering.bind fun
        | none => ((scriptedGrammar n).declarations _ _).bind fun _ => pure _
        | some (.inr _) => pure _
        | some (.inl _) => ((scriptedGrammar n).declarations _ _).bind fun _ => pure _)

end Scripted

end Lox
