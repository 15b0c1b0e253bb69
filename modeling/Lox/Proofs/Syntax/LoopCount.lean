import Lox.Proofs.Outcome
import Lox.Proofs.Syntax.Reading

/-!
Reading with a count of the open loops. A loop counts itself while its body is read, and a function
starts from none and puts the count back behind its body. A reader that has nothing but this count to
tell it whether a loop is around does what the readers of the grammar do, and leaves the count as it
was found, on every way out.
-/

namespace Lox

/-- The readers that take words apart. They know of no loops. -/
inductive Elementary : Type → Type 1 where
  | giveUp {α : Type} : Elementary α
  | outOfFuel {α : Type} : Elementary α
  | here : Elementary Token
  | sees (kind : TokenKind) : Elementary Bool
  | ended (closers : List TokenKind) : Elementary Bool
  | accept (kinds : List TokenKind) : Elementary (Option Token)
  | seesNamedFunction : Elementary Bool
  | report (t : Token) (fault : SyntaxFault) : Elementary Unit
  | reference (name : Token) : Elementary Reference

def Elementary.read {α : Type} : Elementary α → Reader α
  | .giveUp => throw .syntaxError
  | .outOfFuel => Reader.outOfFuel
  | .here => Reader.here
  | .sees kind => Reader.sees kind
  | .ended closers => Reader.ended closers
  | .accept kinds => Reader.accept kinds
  | .seesNamedFunction => Reader.seesNamedFunction
  | .report t fault => Reader.report t fault
  | .reference name => Reader.reference name

/-- A reader in terms of the elementary ones, of loops and of functions. -/
inductive LoopScript : Type → Type 1 where
  | pure {α : Type} (a : α) : LoopScript α
  | bind {α β : Type} (first : LoopScript α) (next : α → LoopScript β) : LoopScript β
  | elementary {α : Type} (step : Elementary α) : LoopScript α
  | recovering {α : Type} (construct : LoopScript α) : LoopScript (Option α)
  /-- Whether a loop is around. -/
  | insideLoop : LoopScript Bool
  | loop {α : Type} (body : LoopScript α) : LoopScript α
  | function {α : Type} (body : LoopScript α) : LoopScript α

/-- A place in the text, and the number of the loops that are open there. -/
structure Counter where
  cursor : Cursor
  loops : Nat

abbrev Counting (α : Type) := EStateM ReadStop Counter α

namespace Counting

variable {α : Type}

/-- The count does not matter and stays. -/
def plain (p : Reader α) : Counting α := fun s =>
  match p s.cursor with
  | .ok a cursor => .ok a { s with cursor }
  | .error stop cursor => .error stop { s with cursor }

def recovering (construct : Counting α) : Counting (Option α) := fun s =>
  match construct s with
  | .ok a s => .ok (some a) s
  | .error .syntaxError s => .ok none { s with cursor := s.cursor.resume }
  | .error .outOfFuel s => .error .outOfFuel s

def insideLoop : Counting Bool := fun s => .ok (0 < s.loops) s

def loop (body : Counting α) : Counting α := fun s =>
  match body { s with loops := s.loops + 1 } with
  | .ok a t => .ok a { t with loops := t.loops - 1 }
  | .error stop t => .error stop { t with loops := t.loops - 1 }

def function (body : Counting α) : Counting α := fun s =>
  match body { s with loops := 0 } with
  | .ok a t => .ok a { t with loops := s.loops }
  | .error stop t => .error stop { t with loops := s.loops }

end Counting

namespace LoopScript

/-- The script with a flag in the stead of the count. -/
def read {α : Type} : LoopScript α → (inLoop : Bool) → Reader α
  | .pure a, _ => Pure.pure a
  | .bind first next, inLoop => first.read inLoop >>= fun a => (next a).read inLoop
  | .elementary step, _ => step.read
  | .recovering construct, inLoop => Reader.recovering (construct.read inLoop)
  | .insideLoop, inLoop => Pure.pure inLoop
  | .loop body, _ => body.read true
  | .function body, _ => body.read false

def count {α : Type} : LoopScript α → Counting α
  | .pure a => Pure.pure a
  | .bind first next => first.count >>= fun a => (next a).count
  | .elementary step => Counting.plain step.read
  | .recovering construct => Counting.recovering construct.count
  | .insideLoop => Counting.insideLoop
  | .loop body => Counting.loop body.count
  | .function body => Counting.function body.count

/-- Counting comes to what reading with the flag comes to. The count is the one from before, with a
result and with a fault. -/
theorem count_eq {α : Type} (script : LoopScript α) (c : Cursor) (loops : Nat) :
    script.count ⟨c, loops⟩ = Counting.plain (script.read (0 < loops)) ⟨c, loops⟩ := by
  induction script generalizing c loops with
  | pure a => rfl
  | bind first next ihfirst ihnext =>
    unfold count read Counting.plain
    cases hp : first.read (0 < loops) c with
    | ok a d =>
      have hfirst : first.count ⟨c, loops⟩ = .ok a ⟨d, loops⟩ := by
        rw [ihfirst, Counting.plain]
        simp only [hp]
      rw [bind_of_ok hfirst, bind_of_ok hp, ihnext]
      rfl
    | error stop d =>
      have hfirst : first.count ⟨c, loops⟩ = .error stop ⟨d, loops⟩ := by
        rw [ihfirst, Counting.plain]
        simp only [hp]
      rw [bind_of_error hfirst, bind_of_error hp]
  | elementary step => rfl
  | recovering construct ih =>
    unfold count read Counting.recovering Counting.plain Reader.recovering
    rw [ih, Counting.plain]
    cases construct.read (0 < loops) c with
    | ok a d => rfl
    | error stop d => cases stop <;> rfl
  | insideLoop => rfl
  | loop body ih =>
    unfold count read Counting.loop
    rw [ih, Counting.plain, Counting.plain]
    have hflag : decide (0 < loops + 1) = true := decide_eq_true (Nat.succ_pos loops)
    rw [hflag]
    cases body.read true c <;> rfl
  | function body ih =>
    unfold count read Counting.function
    have hflag : decide (0 < 0) = false := rfl
    rw [ih, Counting.plain, Counting.plain, hflag]
    cases body.read false c <;> rfl

end LoopScript

/-- A script of readers that are told whether a loop is around. -/
structure Counted {α : Type} (p : (inLoop : Bool) → Reader α) where
  script : LoopScript α
  read_eq : ∀ inLoop, script.read inLoop = p inLoop

namespace Counted

variable {α β : Type} {n : Nat} {p q : Bool → Reader α} {kind : TokenKind} {kinds : List TokenKind}

def congr (h : Counted p) (hpq : ∀ inLoop, q inLoop = p inLoop) : Counted q :=
  ⟨h.script, fun inLoop => (h.read_eq inLoop).trans (hpq inLoop).symm⟩

def pure (a : α) : Counted fun _ => Pure.pure a := ⟨.pure a, fun _ => rfl⟩

def bind {f : Bool → α → Reader β} (h : Counted p) (hf : ∀ a, Counted fun inLoop => f inLoop a) :
    Counted fun inLoop => p inLoop >>= f inLoop where
  script := .bind h.script fun a => (hf a).script
  read_eq inLoop := by
    have hnext : (fun a => (hf a).script.read inLoop) = f inLoop := funext fun a => (hf a).read_eq inLoop
    rw [LoopScript.read, h.read_eq, hnext]

def map (f : α → β) (h : Counted p) : Counted fun inLoop => f <$> p inLoop := h.bind fun a => pure (f a)

def elementary (step : Elementary α) : Counted fun _ => step.read := ⟨.elementary step, fun _ => rfl⟩

def recovering (h : Counted p) : Counted fun inLoop => Reader.recovering (p inLoop) where
  script := .recovering h.script
  read_eq inLoop := by rw [LoopScript.read, h.read_eq]

def insideLoop : Counted fun inLoop => Pure.pure inLoop := ⟨.insideLoop, fun _ => rfl⟩

def loop (h : Counted p) : Counted fun _ => p true where
  script := .loop h.script
  read_eq _ := h.read_eq true

def function (h : Counted p) : Counted fun _ => p false where
  script := .function h.script
  read_eq _ := h.read_eq false

def outOfFuel : Counted fun _ => (Reader.outOfFuel : Reader α) := elementary .outOfFuel

def sees : Counted fun _ => Reader.sees kind := elementary (.sees kind)

def ended : Counted fun _ => Reader.ended kinds := elementary (.ended kinds)

def here : Counted fun _ => Reader.here := elementary .here

def accept : Counted fun _ => Reader.accept kinds := elementary (.accept kinds)

def seesNamedFunction : Counted fun _ => Reader.seesNamedFunction := elementary .seesNamedFunction

def reference (name : Token) : Counted fun _ => Reader.reference name := elementary (.reference name)

def report (t : Token) (fault : SyntaxFault) : Counted fun _ => Reader.report t fault :=
  elementary (.report t fault)

def reportHere (fault : SyntaxFault) : Counted fun _ => Reader.reportHere fault :=
  (here.bind fun t => report t fault).congr fun _ => rfl

def missing (what : Expected) : Counted fun _ => (Reader.missing what : Reader α) :=
  ((reportHere (.missing what)).bind fun _ => elementary .giveUp).congr fun _ => rfl

/-- The next token decides what is read. -/
def choice {f : Bool → Option Token → Reader β} (hnone : Counted fun inLoop => f inLoop none)
    (hsome : ∀ t, Counted fun inLoop => f inLoop (some t)) :
    Counted fun inLoop => Reader.accept kinds >>= f inLoop :=
  accept.bind fun
    | none => hnone
    | some t => hsome t

/-- A test decides what is read. -/
def test {b : Bool → Reader Bool} {f : Bool → Bool → Reader β} (h : Counted b)
    (htrue : Counted fun inLoop => f inLoop true) (hfalse : Counted fun inLoop => f inLoop false) :
    Counted fun inLoop => b inLoop >>= f inLoop :=
  h.bind fun
    | true => htrue
    | false => hfalse

def ite {c : Prop} [Decidable c] (hp : Counted p) (hq : Counted q) :
    Counted fun inLoop => if c then p inLoop else q inLoop :=
  if hc : c then hp.congr fun _ => if_pos hc else hq.congr fun _ => if_neg hc

def expect (kind : TokenKind) (what : Expected) : Counted fun _ => Reader.expect kind what :=
  choice (missing what) pure

section Lists

variable {item : Reader α} {operand : Reader Expr}

def listed {tooMany : SyntaxFault} (h : Counted fun _ => item) :
    ∀ n count, Counted fun _ => Reader.listed tooMany item n count
  | 0, _ => outOfFuel
  | n + 1, count =>
    have tail : Counted fun _ =>
        Reader.itemAndOthers item (Reader.listed tooMany item n (count + 1)) :=
      h.bind fun _ => choice (pure _) fun _ => (listed h n (count + 1)).bind fun _ => pure _
    if hcount : Reader.maxListed ≤ count then
      ((reportHere tooMany).bind fun _ => tail).congr fun _ => Reader.listed_full hcount
    else tail.congr fun _ => Reader.listed_more hcount

def listedOrNone {tooMany : SyntaxFault} (h : Counted fun _ => item) :
    Counted fun _ => Reader.listedOrNone n tooMany item :=
  sees.test (pure []) (h.listed n 0)

def operands (h : Counted fun _ => operand) :
    ∀ n left, Counted fun _ => Reader.operands kinds operand n left
  | 0, _ => outOfFuel
  | n + 1, _ => choice (pure _) fun _ => h.bind fun _ => operands h n _

def leftAssociative (h : Counted fun _ => operand) :
    Counted fun _ => Reader.leftAssociative n kinds operand :=
  h.bind fun left => operands h n left

def levels (h : Counted fun _ => operand) : ∀ operators : List (List TokenKind),
    Counted fun _ => operators.foldr (Reader.leftAssociative n) operand
  | [] => h
  | _ :: operators => leftAssociative (levels h operators)

end Lists

section Productions

variable {expression : Reader Expr} {declarations : Bool → Reader (List Stmt)} {body : Bool → Reader Stmt}

def series (h : Counted fun _ => expression) : Counted fun _ => Reader.series n expression :=
  leftAssociative (choice h fun _ => h.bind fun _ => (report _ _).bind fun _ => pure _)

def callTail (h : Counted fun _ => expression) :
    ∀ n callee, Counted fun _ => Reader.callTail expression n callee
  | 0, _ => outOfFuel
  | n + 1, _ =>
    choice (pure _) fun _ => ite
      (h.listedOrNone.bind fun _ => (expect _ _).bind fun _ => callTail h n _)
      ((expect _ _).bind fun _ => callTail h n _)

/-- The body with its closing brace is read as that of a function. -/
def lambda {role : FunctionRole} (h : Counted declarations) :
    Counted fun _ => Reader.lambda n role (declarations false) :=
  have body : Counted fun inLoop => do
      let body ← declarations inLoop
      let _ ← Reader.expect .rightBrace .braceAfterBlock
      return body :=
    h.bind fun body => (expect _ _).bind fun _ => pure body
  have params : Counted fun _ =>
      Reader.listedOrNone n .tooManyParameters (Reader.expect .identifier .parameterName) :=
    (expect _ _).listedOrNone
  (params.bind fun params =>
    (expect .rightParen .parenAfterParameters).bind fun _ =>
      (expect .leftBrace (.braceBeforeBody role)).bind fun _ =>
        body.function.bind fun body => pure (Lambda.mk params body)).congr fun _ => by
    simp only [Reader.lambda, bind_assoc, pure_bind]

def functionDecl {role : FunctionRole} (h : Counted declarations) :
    Counted fun _ => Reader.function n role (declarations false) :=
  (expect _ _).bind fun _ => (expect _ _).bind fun _ => h.lambda.bind fun _ => pure _

def methods (h : Counted declarations) : ∀ n, Counted fun _ => Reader.methods (declarations false) n
  | 0 => outOfFuel
  | n + 1 =>
    ended.test (pure _) (choice
      (h.functionDecl.bind fun _ => (methods h n).bind fun _ => pure _)
      fun _ => h.functionDecl.bind fun _ => (methods h n).bind fun _ => pure _)

def superclass : Counted fun _ => Reader.superclass :=
  choice (pure _) fun _ => (expect _ _).bind fun _ => (reference _).bind fun _ => pure _

def classDeclaration (h : Counted declarations) :
    Counted fun _ => Reader.classDeclaration n (declarations false) :=
  (expect _ _).bind fun _ => superclass.bind fun _ => (expect _ _).bind fun _ =>
    (h.methods n).bind fun _ => (expect _ _).bind fun _ => pure _

def varDeclaration (h : Counted fun _ => expression) :
    Counted fun _ => Reader.varDeclaration expression :=
  (expect _ _).bind fun _ => choice
    ((pure none).bind fun _ => (expect _ _).bind fun _ => pure _)
    fun _ => (h.map some).bind fun _ => (expect _ _).bind fun _ => pure _

def unlessSees (h : Counted fun _ => expression) : Counted fun _ => Reader.unlessSees kind expression :=
  sees.test (pure none) (h.map some)

def expressionStatement (h : Counted fun _ => expression) :
    Counted fun _ => Reader.expressionStatement n expression :=
  h.series.bind fun _ => (expect _ _).bind fun _ => pure _

def printStatement (h : Counted fun _ => expression) :
    Counted fun _ => Reader.printStatement n expression :=
  h.series.bind fun _ => (expect _ _).bind fun _ => pure _

def returnStatement (keyword : Token) (h : Counted fun _ => expression) :
    Counted fun _ => Reader.returnStatement keyword expression :=
  h.unlessSees.bind fun _ => (expect _ _).bind fun _ => pure _

def breakStatement (keyword : Token) : Counted fun inLoop => Reader.breakStatement keyword inLoop :=
  (expect _ _).bind fun _ => (insideLoop.test (f := fun _ b =>
      if b then Pure.pure (Stmt.break keyword) else do
        Reader.report keyword .misplacedBreak
        return .breakError keyword) (pure _)
    ((report _ _).bind fun _ => pure _)).congr fun _ => rfl

def continueStatement (keyword : Token) :
    Counted fun inLoop => Reader.continueStatement keyword inLoop :=
  (expect _ _).bind fun _ => (insideLoop.test (f := fun _ b =>
      if b then Pure.pure (Stmt.continue keyword) else do
        Reader.report keyword .misplacedContinue
        return .continueError keyword) (pure _)
    ((report _ _).bind fun _ => pure _)).congr fun _ => rfl

def forInitializer (h : Counted fun _ => expression) :
    Counted fun _ => Reader.forInitializer n expression :=
  choice (h.expressionStatement.map some) fun _ => ite (pure _) (h.varDeclaration.map some)

def forStatement (h : Counted fun _ => expression) (hb : Counted body) :
    Counted fun _ => Reader.forStatement n expression (body true) :=
  (expect _ _).bind fun _ => h.forInitializer.bind fun _ => h.unlessSees.bind fun _ =>
    (expect _ _).bind fun _ => h.unlessSees.bind fun _ => (expect _ _).bind fun _ =>
      hb.loop.bind fun _ => pure _

def whileStatement (h : Counted fun _ => expression) (hb : Counted body) :
    Counted fun _ => Reader.whileStatement expression (body true) :=
  (expect _ _).bind fun _ => h.bind fun _ => (expect _ _).bind fun _ =>
    hb.loop.bind fun _ => pure _

def ifStatement (h : Counted fun _ => expression) (hb : Counted body) :
    Counted fun inLoop => Reader.ifStatement expression (body inLoop) :=
  (expect _ _).bind fun _ => h.bind fun _ => (expect _ _).bind fun _ => hb.bind fun _ =>
    choice (pure _) fun _ => hb.bind fun _ => pure _

def superExpression (t : Token) : Counted fun _ => Reader.superExpression t :=
  (expect _ _).bind fun _ => (expect _ _).bind fun _ => (reference _).bind fun _ => pure _

def anonymousFunction (h : Counted declarations) :
    Counted fun _ => Reader.anonymousFunction n (declarations false) :=
  (expect _ _).bind fun _ => h.lambda.bind fun _ => pure _

def groupingExpression (h : Counted fun _ => expression) :
    Counted fun _ => Reader.groupingExpression expression :=
  h.bind fun _ => (expect _ _).bind fun _ => pure _

def primaryFrom (h : Counted fun _ => expression) (hd : Counted declarations) (t : Token) :
    Counted fun _ => Reader.primaryFrom n expression (declarations false) t where
  script := match t.kind with
    | .false => .pure (.literal (.boolean false))
    | .true => .pure (.literal (.boolean true))
    | .number | .string => .pure (.literal (t.literal.getD .nil))
    | .super => (superExpression t).script
    | .this => ((reference t).map Expr.this).script
    | .identifier => ((reference t).map Expr.variable).script
    | .fun => (anonymousFunction (n := n) hd).script
    | .leftParen => (groupingExpression h).script
    | _ => .pure (.literal .nil)
  read_eq inLoop := by
    unfold Reader.primaryFrom
    cases t.kind with
    | super => exact (superExpression t).read_eq inLoop
    | this => exact ((reference t).map Expr.this).read_eq inLoop
    | identifier => exact ((reference t).map Expr.variable).read_eq inLoop
    | «fun» => exact (anonymousFunction hd).read_eq inLoop
    | leftParen => exact (groupingExpression h).read_eq inLoop
    | _ => rfl

def assignment {target : Expr} {equals : Token} {value : Expr} :
    Counted fun _ => Reader.assignment target equals value where
  script := match target with
    | .variable ref => .bind (reference ref.name).script fun ref => .pure (.assign ref value)
    | .get object name => .pure (.set object name value)
    | other => .bind (report equals .invalidAssignmentTarget).script fun _ => .pure other
  read_eq _ := by cases target <;> rfl

end Productions

end Counted

/-- Scripts of the readers that call one another. -/
structure CountedGrammar (n : Nat) where
  expression : Counted fun _ => Reader.expression n
  conditional : Counted fun _ => Reader.conditional n
  unary : Counted fun _ => Reader.unary n
  declarations : ∀ closers, Counted fun inLoop => Reader.declarations n inLoop closers
  declaration : Counted fun inLoop => Reader.declaration n inLoop
  statement : Counted fun inLoop => Reader.statement n inLoop

namespace CountedGrammar

open Counted

variable {n : Nat}

def block (g : CountedGrammar n) : Counted fun inLoop => do
    let body ← Reader.declarations n inLoop [.rightBrace]
    let _ ← Reader.expect .rightBrace .braceAfterBlock
    return Stmt.block body :=
  (g.declarations _).bind fun _ => (expect _ _).bind fun _ => pure _

/-- What follows the first token of a statement. -/
def statementFrom (g : CountedGrammar n) (t : Token) : LoopScript Stmt :=
  match t.kind with
  | .for => (g.expression.forStatement (n := n) g.statement).script
  | .if => (g.expression.ifStatement g.statement).script
  | .while => (g.expression.whileStatement g.statement).script
  | .return => (g.expression.returnStatement t).script
  | .break => (breakStatement t).script
  | .continue => (continueStatement t).script
  | .leftBrace => g.block.script
  | _ => (g.expression.printStatement (n := n)).script

def statement_succ (g : CountedGrammar n) : Counted fun inLoop => Reader.statement (n + 1) inLoop := by
  unfold Reader.statement
  refine choice g.expression.expressionStatement fun t => ⟨g.statementFrom t, fun inLoop => ?_⟩
  simp only [statementFrom]
  cases t.kind with
  | «for» => exact (g.expression.forStatement g.statement).read_eq inLoop
  | «if» => exact (g.expression.ifStatement g.statement).read_eq inLoop
  | «while» => exact (g.expression.whileStatement g.statement).read_eq inLoop
  | «return» => exact (g.expression.returnStatement t).read_eq inLoop
  | «break» => exact (breakStatement t).read_eq inLoop
  | «continue» => exact (continueStatement t).read_eq inLoop
  | leftBrace => exact g.block.read_eq inLoop
  | _ => exact g.expression.printStatement.read_eq inLoop

def succ (g : CountedGrammar n) : CountedGrammar (n + 1) where
  expression := g.conditional.bind fun _ => choice (pure _) fun _ =>
    g.expression.bind fun _ => assignment
  conditional := (g.unary.levels Reader.operatorLevels).bind fun _ => choice (pure _) fun _ =>
    g.conditional.bind fun _ => (expect _ _).bind fun _ => g.conditional.bind fun _ => pure _
  unary := choice
    (choice (missing _) fun t =>
      (primaryFrom g.expression (g.declarations _) t).bind fun _ => g.expression.callTail _ _)
    fun _ => g.unary.bind fun _ => pure _
  declarations := fun closers => ended.test (pure _)
    (g.declaration.recovering.bind fun _ => (g.declarations closers).bind fun _ => pure _)
  declaration := seesNamedFunction.test
    (accept.bind fun _ => (g.declarations _).functionDecl.bind fun _ => pure _)
    (choice g.statement fun _ => ite (g.declarations _).classDeclaration g.expression.varDeclaration)
  statement := g.statement_succ

def zero : CountedGrammar 0 :=
  ⟨outOfFuel, outOfFuel, outOfFuel, fun _ => outOfFuel, outOfFuel, outOfFuel⟩

end CountedGrammar

def countedGrammar : ∀ n, CountedGrammar n
  | 0 => .zero
  | n + 1 => (countedGrammar n).succ

namespace Counted

/-- Counting comes to what the reader comes to, and the count stays. -/
theorem count_eq {α : Type} {p : Bool → Reader α} (h : Counted p) (c : Cursor) (loops : Nat) :
    h.script.count ⟨c, loops⟩ = Counting.plain (p (0 < loops)) ⟨c, loops⟩ := by
  rw [LoopScript.count_eq, h.read_eq]

/-- What is entered at top level, as it is read where a loop may be around. -/
def entry (n : Nat) : Counted fun inLoop => (do
      let t ← Reader.here
      if t.kind ∈ Reader.statementKinds ∨ (← Reader.seesNamedFunction) then
        return .inl (← Reader.declaration n inLoop)
      else
        let e ← Reader.series n (Reader.expression n)
        match ← Reader.accept [.semicolon] with
        | some _ => Pure.pure (.inl (.expression e))
        | none =>
          if ← Reader.ended [] then Pure.pure (.inr e)
          else Reader.missing .semicolonAfterExpression : Reader (Stmt ⊕ Expr)) :=
  here.bind fun _ => seesNamedFunction.bind fun _ => ite
    ((countedGrammar n).declaration.bind fun _ => pure _)
    ((countedGrammar n).expression.series.bind fun _ => choice
      (ended.test (pure _) (missing _)) fun _ => pure _)

/-- Statements behind a first one. -/
def statements (n : Nat) (first : List Stmt) : Counted fun inLoop => do
    return Program.statements (first ++ (← Reader.declarations n inLoop [])) :=
  ((countedGrammar n).declarations _).bind fun _ => pure _

/-- The script of a whole text. -/
def program (n : Nat) : Bool → LoopScript Program
  | false => (statements n []).script
  | true => .bind (.elementary (.ended [])) fun
    | true => (statements n []).script
    | false => .bind (entry n).recovering.script fun
      | none => (statements n []).script
      | some (.inr e) => .pure (.expression e)
      | some (.inl first) => (statements n [first]).script

/-- Without a loop around it is the reader of programs. -/
theorem read_program (n : Nat) (allowExpression : Bool) :
    (program n allowExpression).read false = Reader.program n allowExpression := by
  cases allowExpression with
  | false => exact (statements n []).read_eq false
  | true =>
    have hentry : (entry n).recovering.script.read false = Reader.recovering (Reader.entry n) :=
      (entry n).recovering.read_eq false
    unfold program LoopScript.read Reader.program
    congr 1
    funext b
    cases b with
    | true => exact (statements n []).read_eq false
    | false =>
      simp only [LoopScript.read, hentry]
      congr 1
      funext first
      match first with
      | none => exact (statements n []).read_eq false
      | some (.inr e) => rfl
      | some (.inl first) => exact (statements n [first]).read_eq false

end Counted

end Lox
