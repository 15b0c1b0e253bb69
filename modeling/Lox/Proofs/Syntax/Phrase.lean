import Lox.Syntax

/-!
The grammar as a relation between words and trees. A rule has one constructor for each of its
alternatives, its words in the order of the text:

    declaration  → "class" name ("<" name)? "{" ("class"? function)* "}"
                 | "fun" function | "var" name ("=" expression)? ";" | statement
    function     → name "(" parameters? ")" block
    statement    → series ";" | "print" series ";" | for | while | if | return | break | continue
                 | block
    series       → expression ("," expression)*
    expression   → (call ".")? name "=" expression | conditional
    conditional  → or ("?" conditional ":" conditional)?
    or … product → tighter (operator tighter)*, grouped from the left
    unary        → ("!" | "-") unary | call
    call         → primary ("(" arguments? ")" | "." name)*

Lists have at most 255 items. `break` and `continue` have a loop around them in their function, and
an `else` belongs to the nearest `if`.
-/

namespace Lox.Phrase

/-- The operators with two operands, the loosest first. -/
def precedence : List (List TokenKind) :=
  [[.or], [.and], [.bangEqual, .equalEqual], [.greater, .greaterEqual, .less, .lessEqual],
    [.minus, .plus], [.slash, .star]]

/-- One or more names with commas between them. -/
inductive Names : List Token → List Token → Prop
  | last {t} (ht : t.kind = .identifier) : Names [t] [t]
  | more {t comma ts names} (ht : t.kind = .identifier) (hc : comma.kind = .comma)
      (hs : Names ts names) : Names (t :: comma :: ts) (t :: names)

inductive Parameters : List Token → List Token → Prop
  | none : Parameters [] []
  | some {ts names} (hs : Names ts names) (hn : names.length ≤ 255) : Parameters ts names

inductive Superclass : List Token → Option Reference → Prop
  | none : Superclass [] none
  | some {less ref} (hl : less.kind = .less) (hr : ref.name.kind = .identifier) :
      Superclass [less, ref.name] (some ref)

/-- What a `for` stands for. A missing condition holds always. -/
def forLoop (initializer : Option Stmt) (condition : Option Expr) (increment : Option Expr)
    (body : Stmt) : Stmt :=
  let loop := Stmt.loop (condition.getD (.literal (.boolean true))) body increment
  match initializer with
  | none => loop
  | some first => .block [first, loop]

mutual

inductive Expression : List Token → Expr → Prop
  | conditional {ts e} (h : Conditional ts e) : Expression ts e
  | assign {ref equals ts e} (hr : ref.name.kind = .identifier) (heq : equals.kind = .equal)
      (h : Expression ts e) : Expression (ref.name :: equals :: ts) (.assign ref e)
  | set {os object dot name equals ts e} (ho : Call os object) (hd : dot.kind = .dot)
      (hn : name.kind = .identifier) (heq : equals.kind = .equal) (h : Expression ts e) :
      Expression (os ++ dot :: name :: equals :: ts) (.set object name e)

inductive Conditional : List Token → Expr → Prop
  | binary {ts e} (h : Binary precedence ts e) : Conditional ts e
  | conditional {ts us vs c t f question colon} (hc : Binary precedence ts c)
      (hq : question.kind = .question) (ht : Conditional us t) (hco : colon.kind = .colon)
      (hf : Conditional vs f) :
      Conditional (ts ++ question :: (us ++ colon :: vs)) (.conditional c t f)

/-- An operand of the levels before the first of these, or a term of these levels. -/
inductive Binary : List (List TokenKind) → List Token → Expr → Prop
  | unary {ts e} (h : Unary ts e) : Binary [] ts e
  | tighter {kinds levels ts e} (h : Binary levels ts e) : Binary (kinds :: levels) ts e
  | operator {kinds levels ts us l r op} (hl : Binary (kinds :: levels) ts l)
      (hop : op.kind ∈ kinds) (hr : Binary levels us r) :
      Binary (kinds :: levels) (ts ++ op :: us) (.binary l op r)

inductive Unary : List Token → Expr → Prop
  | operator {op ts e} (hop : op.kind = .bang ∨ op.kind = .minus) (h : Unary ts e) :
      Unary (op :: ts) (.unary op e)
  | call {ts e} (h : Call ts e) : Unary ts e

inductive Call : List Token → Expr → Prop
  | primary {ts e} (h : Primary ts e) : Call ts e
  | noArguments {ts callee opener paren} (h : Call ts callee) (ho : opener.kind = .leftParen)
      (hp : paren.kind = .rightParen) : Call (ts ++ [opener, paren]) (.call callee paren [])
  | arguments {ts us callee opener paren args} (h : Call ts callee)
      (ho : opener.kind = .leftParen) (ha : Arguments us args) (hn : args.length ≤ 255)
      (hp : paren.kind = .rightParen) :
      Call (ts ++ opener :: (us ++ [paren])) (.call callee paren args)
  | property {ts object dot name} (h : Call ts object) (hd : dot.kind = .dot)
      (hn : name.kind = .identifier) : Call (ts ++ [dot, name]) (.get object name)

/-- One or more expressions with commas between them. -/
inductive Arguments : List Token → List Expr → Prop
  | last {ts e} (h : Expression ts e) : Arguments ts [e]
  | more {ts comma us e es} (h : Expression ts e) (hc : comma.kind = .comma)
      (hs : Arguments us es) : Arguments (ts ++ comma :: us) (e :: es)

inductive Primary : List Token → Expr → Prop
  | false {t} (ht : t.kind = .false) : Primary [t] (.literal (.boolean false))
  | true {t} (ht : t.kind = .true) : Primary [t] (.literal (.boolean true))
  | nil {t} (ht : t.kind = .nil) : Primary [t] (.literal .nil)
  | literal {t} (ht : t.kind = .number ∨ t.kind = .string) :
      Primary [t] (.literal (t.literal.getD .nil))
  | this {ref} (ht : ref.name.kind = .this) : Primary [ref.name] (.this ref)
  | super {ref dot method} (ht : ref.name.kind = .super) (hd : dot.kind = .dot)
      (hm : method.kind = .identifier) : Primary [ref.name, dot, method] (.super ref method)
  | variable {ref} (ht : ref.name.kind = .identifier) : Primary [ref.name] (.variable ref)
  | grouping {opener ts e closer} (ho : opener.kind = .leftParen) (h : Expression ts e)
      (hc : closer.kind = .rightParen) : Primary (opener :: (ts ++ [closer])) (.grouping e)
  | lambda {keyword ts f} (hk : keyword.kind = .fun) (h : Function ts f) :
      Primary (keyword :: ts) (.lambda f)

/-- Parameters in parentheses and a body in braces. No loop around it is one of the body. -/
inductive Function : List Token → Lambda → Prop
  | mk {opener ps params closer left bs body right} (ho : opener.kind = .leftParen)
      (hp : Parameters ps params) (hc : closer.kind = .rightParen) (hl : left.kind = .leftBrace)
      (hb : Declarations false bs body) (hr : right.kind = .rightBrace) :
      Function (opener :: (ps ++ closer :: left :: (bs ++ [right]))) (.mk params body)

inductive Declarations : (inLoop : Bool) → List Token → List Stmt → Prop
  | nil {inLoop} : Declarations inLoop [] []
  | cons {inLoop ts us s rest} (h : Declaration inLoop ts s) (hs : Declarations inLoop us rest) :
      Declarations inLoop (ts ++ us) (s :: rest)

inductive Declaration : (inLoop : Bool) → List Token → Stmt → Prop
  | class {inLoop keyword name ss superclass left ms own statics right}
      (hk : keyword.kind = .class) (hn : name.kind = .identifier) (hs : Superclass ss superclass)
      (hl : left.kind = .leftBrace) (hm : Methods ms own statics)
      (hr : right.kind = .rightBrace) :
      Declaration inLoop (keyword :: name :: (ss ++ left :: (ms ++ [right])))
        (.class name superclass own statics)
  | function {inLoop keyword name ts f} (hk : keyword.kind = .fun) (hn : name.kind = .identifier)
      (h : Function ts f) : Declaration inLoop (keyword :: name :: ts) (.function (.mk name f))
  | var {inLoop keyword ts s} (hk : keyword.kind = .var) (h : Variable ts s) :
      Declaration inLoop (keyword :: ts) s
  | statement {inLoop dangles ts s} (h : Statement inLoop dangles ts s) : Declaration inLoop ts s

/-- The methods of the instances, and those of the class itself, which have `class` before them. -/
inductive Methods : List Token → List FunctionDecl → List FunctionDecl → Prop
  | none : Methods [] [] []
  | own {name ts f us own statics} (hn : name.kind = .identifier) (h : Function ts f)
      (hs : Methods us own statics) : Methods (name :: (ts ++ us)) (.mk name f :: own) statics
  | static {keyword name ts f us own statics} (hk : keyword.kind = .class)
      (hn : name.kind = .identifier) (h : Function ts f) (hs : Methods us own statics) :
      Methods (keyword :: name :: (ts ++ us)) own (.mk name f :: statics)

/-- The rest of a declaration after `var`. -/
inductive Variable : List Token → Stmt → Prop
  | unassigned {name semicolon} (hn : name.kind = .identifier) (hs : semicolon.kind = .semicolon) :
      Variable [name, semicolon] (.var name none)
  | initialized {name equals ts e semicolon} (hn : name.kind = .identifier)
      (heq : equals.kind = .equal) (h : Expression ts e) (hs : semicolon.kind = .semicolon) :
      Variable (name :: equals :: (ts ++ [semicolon])) (.var name (some e))

inductive Series : List Token → Expr → Prop
  | expression {ts e} (h : Expression ts e) : Series ts e
  | comma {ts us l r comma} (hl : Series ts l) (hc : comma.kind = .comma) (hr : Expression us r) :
      Series (ts ++ comma :: us) (.binary l comma r)

inductive OptionalExpression : List Token → Option Expr → Prop
  | none : OptionalExpression [] none
  | some {ts e} (h : Expression ts e) : OptionalExpression ts (some e)

inductive ForInitializer : List Token → Option Stmt → Prop
  | none {semicolon} (hs : semicolon.kind = .semicolon) : ForInitializer [semicolon] none
  | var {keyword ts s} (hk : keyword.kind = .var) (h : Variable ts s) :
      ForInitializer (keyword :: ts) (some s)
  | expression {ts e semicolon} (h : Series ts e) (hs : semicolon.kind = .semicolon) :
      ForInitializer (ts ++ [semicolon]) (some (.expression e))

/-- A statement. One that `dangles` ends in an `if` without `else`, so that an `else` after it would
belong to that `if`. -/
inductive Statement : (inLoop dangles : Bool) → List Token → Stmt → Prop
  | expression {inLoop ts e semicolon} (h : Series ts e) (hs : semicolon.kind = .semicolon) :
      Statement inLoop false (ts ++ [semicolon]) (.expression e)
  | print {inLoop keyword ts e semicolon} (hk : keyword.kind = .print) (h : Series ts e)
      (hs : semicolon.kind = .semicolon) :
      Statement inLoop false (keyword :: (ts ++ [semicolon])) (.print e)
  | for {inLoop dangles keyword opener is initializer cs condition semicolon ns increment closer bs
      body} (hk : keyword.kind = .for) (ho : opener.kind = .leftParen)
      (hi : ForInitializer is initializer) (hc : OptionalExpression cs condition)
      (hs : semicolon.kind = .semicolon) (hn : OptionalExpression ns increment)
      (hcl : closer.kind = .rightParen) (hb : Statement true dangles bs body) :
      Statement inLoop dangles
        (keyword :: opener :: (is ++ (cs ++ semicolon :: (ns ++ closer :: bs))))
        (forLoop initializer condition increment body)
  | while {inLoop dangles keyword opener cs condition closer bs body} (hk : keyword.kind = .while)
      (ho : opener.kind = .leftParen) (hc : Expression cs condition)
      (hcl : closer.kind = .rightParen) (hb : Statement true dangles bs body) :
      Statement inLoop dangles (keyword :: opener :: (cs ++ closer :: bs))
        (.loop condition body none)
  | if {inLoop dangles keyword opener cs condition closer ts branch} (hk : keyword.kind = .if)
      (ho : opener.kind = .leftParen) (hc : Expression cs condition)
      (hcl : closer.kind = .rightParen) (ht : Statement inLoop dangles ts branch) :
      Statement inLoop true (keyword :: opener :: (cs ++ closer :: ts)) (.ite condition branch none)
  | ifElse {inLoop dangles keyword opener cs condition closer ts thenBranch middle es elseBranch}
      (hk : keyword.kind = .if) (ho : opener.kind = .leftParen) (hc : Expression cs condition)
      (hcl : closer.kind = .rightParen) (ht : Statement inLoop false ts thenBranch)
      (hm : middle.kind = .else) (he : Statement inLoop dangles es elseBranch) :
      Statement inLoop dangles (keyword :: opener :: (cs ++ closer :: (ts ++ middle :: es)))
        (.ite condition thenBranch (some elseBranch))
  | return {inLoop keyword vs value semicolon} (hk : keyword.kind = .return)
      (hv : OptionalExpression vs value) (hs : semicolon.kind = .semicolon) :
      Statement inLoop false (keyword :: (vs ++ [semicolon])) (.return keyword value)
  | break {keyword semicolon} (hk : keyword.kind = .break) (hs : semicolon.kind = .semicolon) :
      Statement true false [keyword, semicolon] (.break keyword)
  | continue {keyword semicolon} (hk : keyword.kind = .continue)
      (hs : semicolon.kind = .semicolon) :
      Statement true false [keyword, semicolon] (.continue keyword)
  | block {inLoop left bs body right} (hl : left.kind = .leftBrace)
      (hb : Declarations inLoop bs body) (hr : right.kind = .rightBrace) :
      Statement inLoop false (left :: (bs ++ [right])) (.block body)

end

/-- A call is an operand of every operator. -/
theorem Binary.of_call {levels : List (List TokenKind)} {ts : List Token} {e : Expr}
    (h : Call ts e) : Binary levels ts e := by
  induction levels with
  | nil => exact .unary (.call h)
  | cons kinds levels ih => exact .tighter ih

end Lox.Phrase
