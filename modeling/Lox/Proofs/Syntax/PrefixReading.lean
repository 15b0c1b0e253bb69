import Lox.Proofs.Syntax.Words
import Lox.Syntax.PrefixForm

/-!
Reading an expression off its prefix form. The form is a word, or a head in parentheses with the forms of
its arguments, and a text is such a form in one way only.
-/

namespace Lox

/-- What a prefix form is put together from. -/
inductive Form where
  | word (text : String)
  | node (head : String) (arguments : List Form)

namespace Form

mutual

def write : Form → String
  | word text => text
  | node head arguments => "(" ++ head ++ writeAll arguments ++ ")"

/-- The forms of a list, each after a space. -/
def writeAll : List Form → String
  | [] => ""
  | f :: rest => " " ++ f.write ++ writeAll rest

end

mutual

/-- The words and the heads are set apart from what is around them. -/
def Apart : Form → Prop
  | word text => Bare text.toList
  | node head arguments => Bare head.toList ∧ ApartAll arguments

def ApartAll : List Form → Prop
  | [] => True
  | f :: rest => f.Apart ∧ ApartAll rest

end

end Form

/-- A text that goes on with a delimiter, if at all. -/
def Delimited (rest : List Char) : Prop := ∀ c ∈ rest.head?, c ∈ delimiters

theorem delimited_nil : Delimited [] := fun _ hc => nomatch hc

/-- A bare text goes as far as the next delimiter. -/
theorem bare_unique {text text' rest rest' : List Char} (h : Bare text) (h' : Bare text')
    (hrest : Delimited rest) (hrest' : Delimited rest') (heq : text ++ rest = text' ++ rest') :
    text = text' ∧ rest = rest' := by
  have hcut {text rest : List Char} (h : Bare text) (hrest : Delimited rest) :
      (text ++ rest).takeWhile (· ∉ delimiters) = text := by
    have hnone : rest.takeWhile (· ∉ delimiters) = [] := by
      cases rest with
      | nil => rfl
      | cons c cs => exact List.takeWhile_cons_of_neg (by simpa using hrest c rfl)
    rw [List.takeWhile_append_of_pos fun c hc => by simpa using h.2 c hc, hnone, List.append_nil]
  have htext : text = text' := by rw [← hcut h hrest, heq, hcut h' hrest']
  subst htext
  exact ⟨rfl, List.append_cancel_left heq⟩

theorem bare_first {text rest tail : List Char} (h : Bare text) : text ++ rest ≠ '(' :: tail := by
  obtain ⟨c, cs, rfl⟩ := List.exists_cons_of_ne_nil h.1
  intro heq
  obtain rfl : c = '(' := (List.cons.inj heq).1
  exact h.2 _ List.mem_cons_self (by decide)

namespace Form

section Write

theorem write_node (head : String) (arguments : List Form) (rest : List Char) :
    (node head arguments).write.toList ++ rest =
      '(' :: (head.toList ++ ((writeAll arguments).toList ++ ')' :: rest)) := by
  have hopen : "(".toList = ['('] := rfl
  have hclose : ")".toList = [')'] := rfl
  rw [write]
  simp only [String.toList_append, hopen, hclose, List.append_assoc, List.cons_append, List.nil_append]

theorem writeAll_cons (f : Form) (fs : List Form) (rest : List Char) :
    (writeAll (f :: fs)).toList ++ rest = ' ' :: (f.write.toList ++ ((writeAll fs).toList ++ rest)) := by
  have hspace : " ".toList = [' '] := rfl
  rw [writeAll]
  simp only [String.toList_append, hspace, List.append_assoc, List.cons_append, List.nil_append]

/-- Behind a form there is a space or a parenthesis. -/
theorem delimited_writeAll (fs : List Form) (rest : List Char) :
    Delimited ((writeAll fs).toList ++ ')' :: rest) := by
  cases fs with
  | nil => exact fun c hc => by obtain rfl : c = ')' := (Option.some.inj hc).symm; decide
  | cons f fs =>
    rw [writeAll_cons]
    exact fun c hc => by obtain rfl : c = ' ' := (Option.some.inj hc).symm; decide

end Write

mutual

/-- A form is found at the beginning of a text, whatever is behind it. -/
theorem write_unique : ∀ {f g : Form} {rest rest' : List Char}, f.Apart → g.Apart → Delimited rest →
    Delimited rest' → f.write.toList ++ rest = g.write.toList ++ rest' → f = g ∧ rest = rest'
  | word text, word text', rest, rest', hf, hg, hrest, hrest', h => by
    obtain ⟨htext, rfl⟩ := bare_unique hf hg hrest hrest' h
    exact ⟨congrArg word (String.toList_injective htext), rfl⟩
  | word text, node head gs, rest, rest', hf, _, _, _, h => by
    rw [write_node] at h
    exact absurd h (bare_first hf)
  | node head fs, word text, rest, rest', _, hg, _, _, h => by
    rw [write_node] at h
    exact absurd h.symm (bare_first hg)
  | node head fs, node head' gs, rest, rest', ⟨hhead, hfs⟩, ⟨hhead', hgs⟩, hrest, hrest', h => by
    rw [write_node, write_node] at h
    -- The heads end where the arguments begin, whatever the arguments are.
    obtain ⟨hsame, htail⟩ := bare_unique hhead hhead' (delimited_writeAll fs rest)
      (delimited_writeAll gs rest') (List.cons.inj h).2
    obtain ⟨rfl, rfl⟩ := writeAll_unique hfs hgs htail
    exact ⟨congrArg (node · fs) (String.toList_injective hsame), rfl⟩

theorem writeAll_unique : ∀ {fs gs : List Form} {rest rest' : List Char}, ApartAll fs → ApartAll gs →
    (writeAll fs).toList ++ ')' :: rest = (writeAll gs).toList ++ ')' :: rest' → fs = gs ∧ rest = rest'
  | [], [], rest, rest', _, _, h => ⟨rfl, (List.cons.inj h).2⟩
  | [], g :: gs, rest, rest', _, _, h => by
    rw [writeAll_cons] at h
    exact absurd (List.cons.inj h).1 (by decide)
  | f :: fs, [], rest, rest', _, _, h => by
    rw [writeAll_cons] at h
    exact absurd (List.cons.inj h).1 (by decide)
  | f :: fs, g :: gs, rest, rest', ⟨hf, hfs⟩, ⟨hg, hgs⟩, h => by
    rw [writeAll_cons, writeAll_cons] at h
    obtain ⟨rfl, htail⟩ := write_unique hf hg (delimited_writeAll fs rest)
      (delimited_writeAll gs rest') (List.cons.inj h).2
    obtain ⟨rfl, rfl⟩ := writeAll_unique hfs hgs htail
    exact ⟨rfl, rfl⟩

end

end Form

namespace Expr

mutual

/-- The prefix form before it is written out. -/
def form : Expr → Form
  | .literal value => .word value.value.text
  | .grouping inner => .node "group" [inner.form]
  | .unary operator right => .node operator.lexeme [right.form]
  | .binary left operator right => .node operator.lexeme [left.form, right.form]
  | .binaryError operator right => .node "error" [.word operator.lexeme, right.form]
  | .conditional condition thenBranch elseBranch =>
    .node "?:" [condition.form, thenBranch.form, elseBranch.form]
  | .variable ref => .word ref.name.lexeme
  | .assign target value => .node "=" [.word target.name.lexeme, value.form]
  | .call callee _ arguments => .node "call" (callee.form :: formAll arguments)
  | .get object name => .node "." [object.form, .word name.lexeme]
  | .set object name value =>
    .node "=" [.node "." [object.form, .word name.lexeme], value.form]
  | .this _ => .word "this"
  | .super _ method => .node "super" [.word method.lexeme]
  | .lambda (.mk params _) => .node "fun" [.word ("(" ++ lexemes params ++ ")")]

def formAll : List Expr → List Form
  | [] => []
  | e :: rest => e.form :: formAll rest

end

mutual

theorem prefixForm_eq : ∀ e : Expr, e.prefixForm = e.form.write
  | .literal _ | .variable _ | .this _ => rfl
  | .grouping inner => by
    have hhead : "(group " = "(" ++ "group" ++ " " := rfl
    simp only [prefixForm, form, Form.write, Form.writeAll, prefixForm_eq inner, hhead,
      String.append_assoc, String.append_empty]
  | .unary operator right => by
    simp only [prefixForm, form, Form.write, Form.writeAll, prefixForm_eq right,
      String.append_assoc, String.append_empty]
  | .binary left operator right => by
    simp only [prefixForm, form, Form.write, Form.writeAll, prefixForm_eq left, prefixForm_eq right,
      String.append_assoc, String.append_empty]
  | .binaryError operator right => by
    have hhead : "(error " = "(" ++ "error" ++ " " := rfl
    simp only [prefixForm, form, Form.write, Form.writeAll, prefixForm_eq right, hhead,
      String.append_assoc, String.append_empty]
  | .conditional condition thenBranch elseBranch => by
    have hhead : "(?: " = "(" ++ "?:" ++ " " := rfl
    simp only [prefixForm, form, Form.write, Form.writeAll, prefixForm_eq condition,
      prefixForm_eq thenBranch, prefixForm_eq elseBranch, hhead, String.append_assoc,
      String.append_empty]
  | .assign target value => by
    have hhead : "(= " = "(" ++ "=" ++ " " := rfl
    simp only [prefixForm, form, Form.write, Form.writeAll, prefixForm_eq value, hhead,
      String.append_assoc, String.append_empty]
  | .call callee _ arguments => by
    have hhead : "(call " = "(" ++ "call" ++ " " := rfl
    simp only [prefixForm, form, Form.write, Form.writeAll, prefixForm_eq callee,
      prefixForms_eq arguments, hhead, String.append_assoc]
  | .get object name => by
    have hhead : "(. " = "(" ++ "." ++ " " := rfl
    simp only [prefixForm, form, Form.write, Form.writeAll, prefixForm_eq object, hhead,
      String.append_assoc, String.append_empty]
  | .set object name value => by
    have hhead : "(= (. " = "(" ++ "=" ++ " " ++ "(" ++ "." ++ " " := rfl
    have hclose : ") " = ")" ++ " " := rfl
    simp only [prefixForm, form, Form.write, Form.writeAll, prefixForm_eq object,
      prefixForm_eq value, hhead, hclose, String.append_assoc, String.append_empty]
  | .super _ method => by
    have hhead : "(super " = "(" ++ "super" ++ " " := rfl
    simp only [prefixForm, form, Form.write, Form.writeAll, hhead, String.append_assoc,
      String.append_empty]
  | .lambda (.mk params _) => by
    have hhead : "(fun (" = "(" ++ "fun" ++ " " ++ "(" := rfl
    have hclose : "))" = ")" ++ ")" := rfl
    simp only [prefixForm, form, Form.write, Form.writeAll, hhead, hclose, String.append_assoc,
      String.append_empty]

theorem prefixForms_eq : ∀ es : List Expr, prefixForms es = Form.writeAll (formAll es)
  | [] => rfl
  | e :: rest => by rw [prefixForms, formAll, Form.writeAll, prefixForm_eq e, prefixForms_eq rest]

end

/-- What the expression is of itself can be read off its prefix form. -/
def Legible : Expr → Prop
  | .literal (.string _) => False
  | .literal (.number x) => Limited x
  | .lambda _ => False
  | _ => True

/-- The name that an operand has been taken for. -/
def named : Expr → Token
  | .variable ref => ref.name
  | _ => Token.ofText ""

/-- The expression with the head and the arguments. -/
def ofNode : (head : String) → (arguments : List Expr) → Expr
  | "group", [inner] => .grouping inner
  | "error", [operator, right] => .binaryError operator.named right
  | "?:", [condition, thenBranch, elseBranch] => .conditional condition thenBranch elseBranch
  | "=", [.variable ref, value] => .assign ref value
  | "=", [.get object name, value] => .set object name value
  | "call", callee :: arguments => .call callee (Token.ofText ")") arguments
  | ".", [object, name] => .get object name.named
  | "super", [method] => .super ⟨0, Token.ofText "super"⟩ method.named
  | operator, [right] => .unary (Token.ofText operator) right
  | operator, [left, right] => .binary left (Token.ofText operator) right
  | _, _ => .literal .nil

end Expr

mutual

/-- The expression of a form, where the numbers are some of `xs`. -/
def Form.expr (xs : List Float) : Form → Expr
  | .word text => .ofText xs text
  | .node head arguments => .ofNode head (Form.exprAll xs arguments)

def Form.exprAll (xs : List Float) : List Form → List Expr
  | [] => []
  | f :: rest => f.expr xs :: Form.exprAll xs rest

end

namespace Expr

/-- The heads that are no operators. -/
def namedHeads : List String := ["group", "error", "?:", "=", "call", ".", "super"]

section Nodes

variable {head : String}

theorem ofNode_unary (h : head ∉ namedHeads) (right : Expr) :
    ofNode head [right] = .unary (Token.ofText head) right := by
  simp only [namedHeads, List.mem_cons, List.not_mem_nil, or_false, not_or] at h
  obtain ⟨hgroup, herror, hconditional, hequal, hcall, hdot, hsuper⟩ := h
  unfold ofNode
  split <;> first | contradiction | simp_all

theorem ofNode_binary (h : head ∉ namedHeads) (left right : Expr) :
    ofNode head [left, right] = .binary left (Token.ofText head) right := by
  simp only [namedHeads, List.mem_cons, List.not_mem_nil, or_false, not_or] at h
  obtain ⟨hgroup, herror, hconditional, hequal, hcall, hdot, hsuper⟩ := h
  unfold ofNode
  split <;> first | contradiction | simp_all

end Nodes

/-- The part of an expression is made of words, it is legible, and its number is one of `xs`. -/
structure Shown (xs : List Float) (part : Expr) : Prop where
  made : part.Made Token.Written
  legible : part.Legible
  number : ∀ x ∈ part.number?, x ∈ xs

section Tokens

variable {t : Token} {kinds : List TokenKind}

/-- An operator is none of the other heads. -/
theorem among_operator (h : t.Among Token.Written (.bang :: binaryOperators)) :
    t.lexeme ∉ namedHeads := by
  have hothers : ∀ word ∈ fixedWords, word.2 ∈ .bang :: binaryOperators → word.1 ∉ namedHeads := by
    decide
  have hnone : ∀ kind ∈ .bang :: binaryOperators, kind ∉ [.identifier, .number, .string] := by decide
  have hfixed := Denotes.fixed h.word (hnone _ h.kind)
  rw [String.ofList_toList] at hfixed
  exact hothers _ hfixed h.kind

/-- A token of a kind that has one word only. -/
theorem ofText_fixed {kind : TokenKind} {word : String} (h : t.Among Token.Written [kind])
    (hkind : kind ∉ [.identifier, .number, .string])
    (hword : ∀ w ∈ fixedWords, w.2 = kind → w.1 = word) : Token.ofText word = t.unlined := by
  have hsame : t.kind = kind := List.mem_singleton.1 h.kind
  have hfixed := Denotes.fixed h.word (hsame ▸ hkind)
  rw [String.ofList_toList] at hfixed
  rw [← hword _ hfixed hsame, Token.ofText_lexeme h.word]

end Tokens

mutual

theorem form_apart {xs : List Float} : ∀ e : Expr, (∀ part ∈ e.parts, part.Shown xs) → e.form.Apart
  | .literal value, h => by
    obtain ⟨hmade, hlegible, -⟩ := h _ (mem_parts _)
    cases value with
    | nil => exact bare_of_all (by decide)
    | boolean b => cases b <;> exact bare_of_all (by decide)
    | number x => 
      cases hmade with
      | literal ht hvalue => exact numeral_bare (text_numeral (ht.word.unsigned hvalue) hlegible)
    | string text => exact hlegible.elim
  | .grouping inner, h => by
    obtain ⟨-, hinner⟩ := List.forall_mem_cons.1 h
    exact ⟨bare_of_all (by decide), form_apart inner hinner, trivial⟩
  | .unary operator right, h => by
    obtain ⟨hself, hright⟩ := List.forall_mem_cons.1 h
    cases hself.made with
    | unary ho => exact ⟨ho.bare (by decide), form_apart right hright, trivial⟩
  | .binary left operator right, h => by
    obtain ⟨hself, hparts⟩ := List.forall_mem_cons.1 h
    obtain ⟨hleft, hright⟩ := List.forall_mem_append.1 hparts
    cases hself.made with
    | binary _ ho =>
      exact ⟨ho.bare (by decide), form_apart left hleft, form_apart right hright, trivial⟩
  | .binaryError operator right, h => by
    obtain ⟨hself, hright⟩ := List.forall_mem_cons.1 h
    cases hself.made with
    | binaryError ho =>
      exact ⟨bare_of_all (by decide), ho.bare (by decide), form_apart right hright, trivial⟩
  | .conditional condition thenBranch elseBranch, h => by
    obtain ⟨-, hparts⟩ := List.forall_mem_cons.1 h
    obtain ⟨hc, hparts⟩ := List.forall_mem_append.1 hparts
    obtain ⟨ht, hf⟩ := List.forall_mem_append.1 hparts
    exact ⟨bare_of_all (by decide), form_apart condition hc, form_apart thenBranch ht,
      form_apart elseBranch hf, trivial⟩
  | .variable ref, h => by
    cases (h _ (mem_parts _)).made with
    | «variable» hname => exact hname.bare (by decide)
  | .assign target value, h => by
    obtain ⟨hself, hvalue⟩ := List.forall_mem_cons.1 h
    cases hself.made with
    | assign hname =>
      exact ⟨bare_of_all (by decide), hname.bare (by decide), form_apart value hvalue, trivial⟩
  | .call callee paren arguments, h => by
    obtain ⟨-, hparts⟩ := List.forall_mem_cons.1 h
    obtain ⟨hcallee, harguments⟩ := List.forall_mem_append.1 hparts
    exact ⟨bare_of_all (by decide), form_apart callee hcallee, formAll_apart arguments harguments⟩
  | .get object name, h => by
    obtain ⟨hself, hobject⟩ := List.forall_mem_cons.1 h
    cases hself.made with
    | get _ hname =>
      exact ⟨bare_of_all (by decide), form_apart object hobject, hname.bare (by decide), trivial⟩
  | .set object name value, h => by
    obtain ⟨hself, hparts⟩ := List.forall_mem_cons.1 h
    obtain ⟨hobject, hvalue⟩ := List.forall_mem_append.1 hparts
    cases hself.made with
    | set _ hname =>
      exact ⟨bare_of_all (by decide), ⟨bare_of_all (by decide), form_apart object hobject,
        hname.bare (by decide), trivial⟩, form_apart value hvalue, trivial⟩
  | .this _, _ => bare_of_all (by decide)
  | .super ref method, h => by
    cases (h _ (mem_parts _)).made with
    | super _ hmethod => exact ⟨bare_of_all (by decide), hmethod.bare (by decide), trivial⟩
  | .lambda _, h => (h _ (mem_parts _)).legible.elim

theorem formAll_apart {xs : List Float} :
    ∀ es : List Expr, (∀ part ∈ partsAll es, part.Shown xs) → Form.ApartAll (formAll es)
  | [], _ => trivial
  | e :: rest, h =>
    let ⟨he, hrest⟩ := List.forall_mem_append.1 h
    ⟨form_apart e he, formAll_apart rest hrest⟩

end

section Reading

variable {xs : List Float}

mutual

/-- An expression is found again in its form. -/
theorem expr_form (hxs : PrintedApart xs) :
    ∀ e : Expr, (∀ part ∈ e.parts, part.Shown xs) → e.form.expr xs = e.plain
  | .literal value, h => by
    obtain ⟨hmade, hlegible, hnumber⟩ := h _ (mem_parts _)
    cases value with
    | nil => exact ofText_nil
    | boolean b => exact ofText_boolean b
    | number x =>
      cases hmade with
      | literal ht hvalue =>
        exact ofText_number (hnumber x rfl) hxs (ht.word.unsigned hvalue) hlegible
    | string text => exact hlegible.elim
  | .grouping inner, h => by
    obtain ⟨-, hinner⟩ := List.forall_mem_cons.1 h
    exact congrArg grouping (expr_form hxs inner hinner)
  | .unary operator right, h => by
    obtain ⟨hself, hright⟩ := List.forall_mem_cons.1 h
    cases hself.made with
    | unary ho =>
      show ofNode operator.lexeme [right.form.expr xs] = .unary operator.unlined right.plain
      rw [ofNode_unary (among_operator (ho.mono (by decide))), Token.ofText_lexeme ho.word,
        expr_form hxs right hright]
  | .binary left operator right, h => by
    obtain ⟨hself, hparts⟩ := List.forall_mem_cons.1 h
    obtain ⟨hleft, hright⟩ := List.forall_mem_append.1 hparts
    cases hself.made with
    | binary _ ho =>
      show ofNode operator.lexeme [left.form.expr xs, right.form.expr xs] =
        .binary left.plain operator.unlined right.plain
      rw [ofNode_binary (among_operator (ho.mono (List.subset_cons_self _ _))),
        Token.ofText_lexeme ho.word, expr_form hxs left hleft, expr_form hxs right hright]
  | .binaryError operator right, h => by
    obtain ⟨hself, hright⟩ := List.forall_mem_cons.1 h
    cases hself.made with
    | binaryError ho =>
      show Expr.binaryError (ofText xs operator.lexeme).named (right.form.expr xs) =
        .binaryError operator.unlined right.plain
      rw [ofText_name ho (by decide), expr_form hxs right hright]
      rfl
  | .conditional condition thenBranch elseBranch, h => by
    obtain ⟨-, hparts⟩ := List.forall_mem_cons.1 h
    obtain ⟨hc, hparts⟩ := List.forall_mem_append.1 hparts
    obtain ⟨ht, hf⟩ := List.forall_mem_append.1 hparts
    show Expr.conditional (condition.form.expr xs) (thenBranch.form.expr xs)
      (elseBranch.form.expr xs) = .conditional condition.plain thenBranch.plain elseBranch.plain
    rw [expr_form hxs condition hc, expr_form hxs thenBranch ht, expr_form hxs elseBranch hf]
  | .variable ref, h => by
    cases (h _ (mem_parts _)).made with
    | «variable» hname => exact ofText_name hname (by decide)
  | .assign target value, h => by
    obtain ⟨hself, hvalue⟩ := List.forall_mem_cons.1 h
    cases hself.made with
    | assign hname =>
      show ofNode "=" [ofText xs target.name.lexeme, value.form.expr xs] =
        .assign ⟨0, target.name.unlined⟩ value.plain
      rw [ofText_name hname (by decide), expr_form hxs value hvalue]
      rfl
  | .call callee paren arguments, h => by
    obtain ⟨hself, hparts⟩ := List.forall_mem_cons.1 h
    obtain ⟨hcallee, harguments⟩ := List.forall_mem_append.1 hparts
    cases hself.made with
    | call _ hp _ =>
      show Expr.call (callee.form.expr xs) (Token.ofText ")") (Form.exprAll xs (formAll arguments)) =
        .call callee.plain paren.unlined (plainAll arguments)
      rw [expr_form hxs callee hcallee, exprAll_form hxs arguments harguments,
        ofText_fixed hp (by decide) (by decide)]
  | .get object name, h => by
    obtain ⟨hself, hobject⟩ := List.forall_mem_cons.1 h
    cases hself.made with
    | get _ hname =>
      show Expr.get (object.form.expr xs) (ofText xs name.lexeme).named = .get object.plain name.unlined
      rw [expr_form hxs object hobject, ofText_name hname (by decide)]
      rfl
  | .set object name value, h => by
    obtain ⟨hself, hparts⟩ := List.forall_mem_cons.1 h
    obtain ⟨hobject, hvalue⟩ := List.forall_mem_append.1 hparts
    cases hself.made with
    | set _ hname =>
      show Expr.set (object.form.expr xs) (ofText xs name.lexeme).named (value.form.expr xs) =
        .set object.plain name.unlined value.plain
      rw [expr_form hxs object hobject, ofText_name hname (by decide), expr_form hxs value hvalue]
      rfl
  | .this ref, h => by
    cases (h _ (mem_parts _)).made with
    | this hname =>
      show ofText xs "this" = .this ⟨0, ref.name.unlined⟩
      rw [ofText_this, ofText_fixed hname (by decide) (by decide)]
  | .super ref method, h => by
    cases (h _ (mem_parts _)).made with
    | super hname hmethod =>
      show Expr.super ⟨0, Token.ofText "super"⟩ (ofText xs method.lexeme).named =
        .super ⟨0, ref.name.unlined⟩ method.unlined
      rw [ofText_fixed hname (by decide) (by decide), ofText_name hmethod (by decide)]
      rfl
  | .lambda _, h => (h _ (mem_parts _)).legible.elim

theorem exprAll_form (hxs : PrintedApart xs) : ∀ es : List Expr,
    (∀ part ∈ partsAll es, part.Shown xs) → Form.exprAll xs (formAll es) = plainAll es
  | [], _ => rfl
  | e :: rest, h =>
    let ⟨he, hrest⟩ := List.forall_mem_append.1 h
    congrArg₂ List.cons (expr_form hxs e he) (exprAll_form hxs rest hrest)

end

end Reading

end Expr

/-- The prefix form of an expression shows the expression, if it has no function in it, no string and no
infinite number, and if different numbers are printed differently. Whatever is wrong with the sources,
two expressions of them that are printed the same are the same, apart from the lines of their tokens and
the numbers of their names. -/
theorem prefixForm_shows {source source' : String} {e e' : Expr} (he : e.ReadFrom source)
    (he' : e'.ReadFrom source') (hlegible : ∀ part ∈ e.parts ++ e'.parts, part.Legible)
    (hnumbers : PrintedApart (e.numbers ++ e'.numbers)) (h : e.prefixForm = e'.prefixForm) :
    e.plain = e'.plain := by
  obtain ⟨hlegible, hlegible'⟩ := List.forall_mem_append.1 hlegible
  have hshown : ∀ part ∈ e.parts, part.Shown (e.numbers ++ e'.numbers) := fun part hpart =>
    ⟨he.madeOf part hpart, hlegible part hpart, fun _ hx =>
      List.mem_append_left _ (Expr.mem_numbers hpart hx)⟩
  have hshown' : ∀ part ∈ e'.parts, part.Shown (e.numbers ++ e'.numbers) := fun part hpart =>
    ⟨he'.madeOf part hpart, hlegible' part hpart, fun _ hx =>
      List.mem_append_right _ (Expr.mem_numbers hpart hx)⟩
  have hwritten : e.form.write.toList ++ [] = e'.form.write.toList ++ [] := by
    rw [← Expr.prefixForm_eq, ← Expr.prefixForm_eq, h]
  have hform : e.form = e'.form :=
    (Form.write_unique (Expr.form_apart e hshown) (Expr.form_apart e' hshown') delimited_nil
      delimited_nil hwritten).1
  calc e.plain
      = e.form.expr (e.numbers ++ e'.numbers) := (Expr.expr_form hnumbers e hshown).symm
    _ = e'.form.expr (e.numbers ++ e'.numbers) := by rw [hform]
    _ = e'.plain := Expr.expr_form hnumbers e' hshown'

section Respelled

/-- The words `a . b = f ( x ) - - y ;`, where `x` is a number. -/
def respelledWords (numeral : String) (x : Float) : List Token :=
  [.fixed .identifier "a", .fixed .dot ".", .fixed .identifier "b", .fixed .equal "=",
    .fixed .identifier "f", .fixed .leftParen "(", ⟨.number, numeral, some (.number x), 0⟩,
    .fixed .rightParen ")", .fixed .minus "-", .fixed .minus "-", .fixed .identifier "y",
    .fixed .semicolon ";"]

def respelledTree (x : Float) (first : NodeId) : Expr :=
  .set (.variable ⟨first, .synthetic .identifier "a" 1⟩) (.synthetic .identifier "b" 1)
    (.binary
      (.call (.variable ⟨first + 1, .synthetic .identifier "f" 1⟩) (.synthetic .rightParen ")" 1)
        [.literal (.number x)])
      (.synthetic .minus "-" 1)
      (.unary (.synthetic .minus "-" 1) (.variable ⟨first + 2, .synthetic .identifier "y" 1⟩)))

theorem respelledWords_written {numeral : String} (h : IsNumeral numeral.toList) :
    ∀ t ∈ respelledWords numeral (decimalValue numeral.toList), t.Written := by
  simp only [respelledWords, List.forall_mem_cons]
  exact ⟨Token.written_name (by decide) (by decide), .operator (by decide),
    Token.written_name (by decide) (by decide), .operator (by decide),
    Token.written_name (by decide) (by decide), .operator (by decide), .number h,
    .operator (by decide), .operator (by decide), .operator (by decide),
    Token.written_name (by decide) (by decide), .operator (by decide), List.forall_mem_nil _⟩

/-- The number is spelled in two ways. -/
theorem prefixForm_shows_respelled :
    ∃ e e' : Expr, e.ReadFrom "a . b = f ( 1.50 ) - - y ;" ∧ e'.ReadFrom "a . b = f ( 1.5 ) - - y ;" ∧
      (∀ part ∈ e.parts ++ e'.parts, part.Legible) ∧ PrintedApart (e.numbers ++ e'.numbers) ∧
      e.prefixForm = e'.prefixForm ∧ e.plain = e'.plain ∧ e ≠ e' := by
  have hread : (respelledTree (decimalValue "1.50".toList) 0).ReadFrom
      "a . b = f ( 1.50 ) - - y ;" := by
    have hsource : spaced (respelledWords "1.50" (decimalValue "1.50".toList)) =
        "a . b = f ( 1.50 ) - - y ;" := by decide +kernel
    refine .of_spaced hsource (respelledWords_written
      (numeral_point ['1'] ['5', '0'] (by decide) (by decide))) true 0 ?_
    generalize decimalValue "1.50".toList = x
    have hparse : (parse (Token.relined 1 (respelledWords "1.50" x ++ [.fixed .eof ""]))
        true 0).program = .statements [.expression (respelledTree x 0)] := by cbv
    rw [hparse]
    exact List.mem_append_left _ (Expr.mem_parts _)
  have hread' : (respelledTree (decimalValue "1.5".toList) 3).ReadFrom
      "a . b = f ( 1.5 ) - - y ;" := by
    have hsource : spaced (respelledWords "1.5" (decimalValue "1.5".toList)) =
        "a . b = f ( 1.5 ) - - y ;" := by decide +kernel
    refine .of_spaced hsource (respelledWords_written
      (numeral_point ['1'] ['5'] (by decide) (by decide))) false 3 ?_
    generalize decimalValue "1.5".toList = x
    have hparse : (parse (Token.relined 1 (respelledWords "1.5" x ++ [.fixed .eof ""]))
        false 3).program = .statements [.expression (respelledTree x 3)] := by cbv
    rw [hparse]
    exact List.mem_append_left _ (Expr.mem_parts _)
  have hsame : decimalValue "1.50".toList = decimalValue "1.5".toList := by decide +kernel
  have hlimited : Limited (decimalValue "1.5".toList) := by
    unfold Limited
    decide +kernel
  rw [hsame] at hread
  generalize decimalValue "1.5".toList = x at hread hread' hlimited
  have hlegible : ∀ part ∈ (respelledTree x 0).parts ++ (respelledTree x 3).parts, part.Legible := by
    simp [respelledTree, Expr.parts, Expr.partsAll, Expr.Legible, hlimited]
  have hapart : PrintedApart ((respelledTree x 0).numbers ++ (respelledTree x 3).numbers) := by
    have hnumbers : (respelledTree x 0).numbers ++ (respelledTree x 3).numbers = [x, x] := rfl
    exact .of_eq (x := x) (by simp [hnumbers])
  exact ⟨_, _, hread, hread', hlegible, hapart, rfl,
    prefixForm_shows hread hread' hlegible hapart rfl, by simp [respelledTree, Token.synthetic]⟩

end Respelled

end Lox
