import Lox.CommandLine
import Lox.Proofs.Syntax.LoopPlacement
import Lox.Proofs.Syntax.Parts
import Lox.Proofs.Syntax.Pieces

/-!
Operators without a left operand, by their places in an expression. The postfix form is refused for the
first of them, and none of them is in an expression that is read without a diagnostic.
-/

namespace Lox

def Piece.expr? : Piece → Option Expr
  | .expr e => some e
  | _ => none

namespace Expr

/-- The expressions that an expression is put together from, from left to right. The body of a function
is not among them. -/
def operands (e : Expr) : List Expr := (Piece.expr e).parts.filterMap Piece.expr?

/-- The expression at a place. A place tells, from the outside inwards, which operand to go to. -/
def at? : Expr → List Nat → Option Expr
  | e, [] => some e
  | e, i :: place => e.operands[i]?.bind fun operand => operand.at? place

/-- The operator stands at the place without a left operand. -/
def Dangles (e : Expr) (place : List Nat) (operator : Token) : Prop :=
  ∃ right, e.at? place = some (.binaryError operator right)

/-- The operator is the first one that stands without a left operand: every other one is within its
right operand or branches off further to the right. -/
structure DanglesFirst (e : Expr) (place : List Nat) (operator : Token) : Prop where
  dangles : e.Dangles place operator
  first : ∀ place' operator', e.Dangles place' operator' →
    place' = place ∨ List.Lex (· < ·) place place'

section Operands

variable {e operand : Expr}

theorem operands_call (callee : Expr) (paren : Token) (arguments : List Expr) :
    (call callee paren arguments).operands = callee :: arguments := by
  have hexprs : (arguments.map Piece.expr).filterMap Piece.expr? = arguments := by
    rw [List.filterMap_map]
    exact List.filterMap_some
  exact congrArg (callee :: ·) hexprs

theorem sizeOf_operand (h : operand ∈ e.operands) : sizeOf operand < sizeOf e := by
  cases e with
  | literal | «variable» | this | super | lambda => exact nomatch h
  | grouping | unary | binaryError | assign | get =>
    obtain rfl := List.mem_singleton.1 h
    simp only [grouping.sizeOf_spec, unary.sizeOf_spec, binaryError.sizeOf_spec, assign.sizeOf_spec,
      get.sizeOf_spec]
    omega
  | binary | set =>
    simp only [binary.sizeOf_spec, set.sizeOf_spec]
    obtain rfl | rfl := List.mem_pair.1 h <;> omega
  | conditional condition thenBranch elseBranch =>
    simp only [conditional.sizeOf_spec]
    obtain rfl | hbranch := List.mem_cons.1 h
    · omega
    · obtain rfl | rfl := List.mem_pair.1 hbranch <;> omega
  | call callee paren arguments =>
    rw [operands_call] at h
    simp only [call.sizeOf_spec]
    obtain rfl | hargument := List.mem_cons.1 h
    · omega
    · have hlt := List.sizeOf_lt_of_mem hargument
      omega

theorem marks_operand (h : operand ∈ e.operands) (around : Enclosures) :
    operand.marks around ⊆ e.marks around := by
  cases e with
  | literal | «variable» | this | super | lambda => exact nomatch h
  | grouping | unary | assign | get =>
    obtain rfl := List.mem_singleton.1 h
    exact List.Subset.refl _
  | binaryError =>
    obtain rfl := List.mem_singleton.1 h
    exact List.subset_cons_self _ _
  | binary =>
    obtain rfl | rfl := List.mem_pair.1 h
    · exact List.subset_append_left _ _
    · exact List.subset_append_right _ _
  | set =>
    -- Names are resolved in the value before those in the object.
    obtain rfl | rfl := List.mem_pair.1 h
    · exact List.subset_append_right _ _
    · exact List.subset_append_left _ _
  | conditional condition thenBranch elseBranch =>
    obtain rfl | hbranch := List.mem_cons.1 h
    · exact List.subset_append_left _ _
    · apply List.subset_append_of_subset_right
      obtain rfl | rfl := List.mem_pair.1 hbranch
      · exact List.subset_append_left _ _
      · exact List.subset_append_right _ _
  | call callee paren arguments =>
    rw [operands_call] at h
    obtain rfl | hargument := List.mem_cons.1 h
    · exact List.subset_append_left _ _
    · apply List.subset_append_of_subset_right
      rw [Expr.marksAll_eq_flatMap]
      exact fun m hm => List.mem_flatMap.2 ⟨operand, hargument, hm⟩

end Operands

section Places

variable {e : Expr} {operator : Token} {i : Nat} {place : List Nat}

theorem dangles_nil : e.Dangles [] operator ↔ ∃ right, e = .binaryError operator right :=
  exists_congr fun _ => Option.some_inj

theorem dangles_cons : e.Dangles (i :: place) operator ↔
    ∃ operand, e.operands[i]? = some operand ∧ operand.Dangles place operator := by
  simp only [Dangles, at?, Option.bind_eq_some_iff]
  constructor
  · rintro ⟨right, operand, hoperand, hright⟩
    exact ⟨operand, hoperand, right, hright⟩
  · rintro ⟨operand, hoperand, right, hright⟩
    exact ⟨right, operand, hoperand, hright⟩

theorem Dangles.mark (h : e.Dangles place operator) (around : Enclosures) :
    ⟨.binaryError, operator, around⟩ ∈ e.marks around := by
  induction place generalizing e with
  | nil =>
    obtain ⟨right, rfl⟩ := dangles_nil.1 h
    exact List.mem_cons_self
  | cons i place ih =>
    obtain ⟨operand, hoperand, hdangles⟩ := dangles_cons.1 h
    exact marks_operand (List.mem_of_getElem? hoperand) around (ih hdangles)

end Places

section Refusal

/-- The operator that keeps a form from being there. -/
def refusal? : Except DanglingOperator String → Option DanglingOperator
  | .ok _ => none
  | .error d => some d

theorem refusal?_eq_some {form : Except DanglingOperator String} {d : DanglingOperator} :
    refusal? form = some d ↔ form = .error d := by
  cases form <;> simp [refusal?]

theorem refusal?_map (form : Except DanglingOperator String) (f : String → String) :
    refusal? (form >>= fun text => pure (f text)) = refusal? form := by
  cases form <;> rfl

/-- What is put together from two forms is refused for the first one that is. -/
theorem refusal?_bind {form : Except DanglingOperator String}
    {f : String → Except DanglingOperator String} {other : Option DanglingOperator}
    (h : ∀ text, refusal? (f text) = other) : refusal? (form >>= f) = (refusal? form).or other := by
  cases form with
  | error d => rfl
  | ok text => exact h text

theorem findSome?_cons_or {α β : Type} (f : α → Option β) (a : α) (rest : List α) :
    (a :: rest).findSome? f = (f a).or (rest.findSome? f) := by
  rw [List.findSome?_cons]
  cases f a <;> rfl

theorem refusal?_postfixForms (es : List Expr) :
    refusal? (postfixForms es) = es.findSome? fun e => refusal? e.postfixForm := by
  induction es with
  | nil => rfl
  | cons e rest ih =>
    rw [postfixForms, findSome?_cons_or, ← ih]
    exact refusal?_bind fun _ => refusal?_map _ _

/-- An expression that has what it needs itself is refused for the first of its operands that is. -/
theorem refusal?_postfixForm {e : Expr} (h : ∀ operator right, e ≠ .binaryError operator right) :
    refusal? e.postfixForm = e.operands.findSome? fun operand => refusal? operand.postfixForm := by
  cases e with
  | literal | «variable» | this | super => rfl
  | lambda function =>
    cases function
    rfl
  | binaryError operator right => exact absurd rfl (h operator right)
  | grouping => exact List.findSome?_singleton.symm
  | unary | assign | get =>
    exact (refusal?_map _ _).trans List.findSome?_singleton.symm
  | binary left _ right | set left _ right =>
    show _ = [left, right].findSome? _
    rw [findSome?_cons_or, List.findSome?_singleton]
    exact refusal?_bind fun _ => refusal?_map _ _
  | conditional condition thenBranch elseBranch =>
    show _ = [condition, thenBranch, elseBranch].findSome? _
    rw [findSome?_cons_or, findSome?_cons_or, List.findSome?_singleton]
    exact refusal?_bind fun _ => refusal?_bind fun _ => refusal?_map _ _
  | call callee paren arguments =>
    rw [operands_call, findSome?_cons_or, ← refusal?_postfixForms]
    exact refusal?_bind fun _ => refusal?_map _ _

end Refusal

section First

variable {e : Expr} {operator operator' : Token} {place place' : List Nat} {d : DanglingOperator}

theorem Dangles.refused (h : e.Dangles place operator) : ∃ d, refusal? e.postfixForm = some d := by
  induction place generalizing e with
  | nil =>
    obtain ⟨right, rfl⟩ := dangles_nil.1 h
    exact ⟨_, rfl⟩
  | cons i place ih =>
    obtain ⟨operand, hoperand, hdangles⟩ := dangles_cons.1 h
    by_cases hself : ∃ operator right, e = .binaryError operator right
    · obtain ⟨_, _, rfl⟩ := hself
      exact ⟨_, rfl⟩
    · simp only [not_exists] at hself
      obtain ⟨d, hd⟩ := ih hdangles
      rw [refusal?_postfixForm hself, ← Option.isSome_iff_exists, List.findSome?_isSome_iff]
      exact ⟨operand, List.mem_of_getElem? hoperand, by rw [hd]; rfl⟩

theorem danglesFirst_nil (operator : Token) (right : Expr) :
    (binaryError operator right).DanglesFirst [] operator := by
  refine ⟨dangles_nil.2 ⟨right, rfl⟩, fun place' _ _ => ?_⟩
  cases place' with
  | nil => exact .inl rfl
  | cons i place' => exact .inr .nil

/-- What comes first in an operand comes first in the whole, if the operands before it have their
forms. -/
theorem DanglesFirst.cons {before after : List Expr} {operand : Expr}
    (hself : ∀ operator right, e ≠ .binaryError operator right)
    (hoperands : e.operands = before ++ operand :: after)
    (hbefore : ∀ other ∈ before, refusal? other.postfixForm = none)
    (h : operand.DanglesFirst place operator) :
    e.DanglesFirst (before.length :: place) operator := by
  have hat : e.operands[before.length]? = some operand := by
    rw [hoperands, List.getElem?_append_right (Nat.le_refl _), Nat.sub_self]
    rfl
  refine ⟨dangles_cons.2 ⟨operand, hat, h.dangles⟩, fun place' operator' h' => ?_⟩
  cases place' with
  | nil =>
    obtain ⟨right, rfl⟩ := dangles_nil.1 h'
    exact absurd rfl (hself operator' right)
  | cons i place' =>
    obtain ⟨operand', hat', hdangles'⟩ := dangles_cons.1 h'
    rcases Nat.lt_trichotomy i before.length with hlt | rfl | hgt
    · rw [hoperands, List.getElem?_append_left hlt] at hat'
      obtain ⟨d, hd⟩ := hdangles'.refused
      exact nomatch (hbefore operand' (List.mem_of_getElem? hat')).symm.trans hd
    · obtain rfl := Option.some.inj (hat.symm.trans hat')
      exact (h.first place' operator' hdangles').imp (congrArg _) .cons
    · exact .inr (.rel hgt)

/-- What an expression is refused for is the first operator in it without a left operand. -/
theorem danglesFirst_of_refused (e : Expr) (h : refusal? e.postfixForm = some d) :
    ∃ place operator, e.DanglesFirst place operator ∧ d = ⟨operator.line, operator.lexeme⟩ := by
  by_cases hself : ∃ operator right, e = .binaryError operator right
  · obtain ⟨operator, right, rfl⟩ := hself
    exact ⟨[], operator, danglesFirst_nil operator right, (Option.some.inj h).symm⟩
  · simp only [not_exists] at hself
    rw [refusal?_postfixForm hself] at h
    obtain ⟨before, operand, after, hoperands, hoperand, hbefore⟩ := List.findSome?_eq_some_iff.1 h
    have hmem : operand ∈ e.operands := hoperands ▸ List.mem_append_right _ List.mem_cons_self
    obtain ⟨place, operator, hfirst, hd⟩ := danglesFirst_of_refused operand hoperand
    exact ⟨before.length :: place, operator, .cons hself hoperands hbefore hfirst, hd⟩
termination_by sizeOf e
decreasing_by exact sizeOf_operand hmem

theorem DanglesFirst.unique (h : e.DanglesFirst place operator)
    (h' : e.DanglesFirst place' operator') : operator = operator' := by
  have hplace : place = place' := by
    rcases h.first _ _ h'.dangles with heq | hlt
    · exact heq.symm
    · exact (h'.first _ _ h.dangles).resolve_right fun hgt => asymm hlt hgt
  subst hplace
  obtain ⟨right, hright⟩ := h.dangles
  obtain ⟨right', hright'⟩ := h'.dangles
  cases Option.some.inj (hright.symm.trans hright')
  rfl

theorem postfixForm_eq_error : e.postfixForm = .error d ↔
    ∃ place operator, e.DanglesFirst place operator ∧ d = ⟨operator.line, operator.lexeme⟩ := by
  rw [← refusal?_eq_some]
  refine ⟨danglesFirst_of_refused e, ?_⟩
  rintro ⟨place, operator, hfirst, rfl⟩
  obtain ⟨d, hd⟩ := hfirst.dangles.refused
  obtain ⟨place', operator', hfirst', rfl⟩ := danglesFirst_of_refused e hd
  rw [hd, hfirst.unique hfirst']

end First

end Expr

section Reading

variable {tokens : List Token} {allowExpression : Bool} {nextId : NodeId} {e : Expr}

/-- Whatever is wrong with a text, an operator without a left operand has been reported. -/
theorem parse_reports_dangling {place : List Nat} {operator : Token}
    (hread : (parse tokens allowExpression nextId).program = .expression e)
    (h : e.Dangles place operator) :
    .atToken operator (.syntactic .noLeftOperand) ∈
      (parse tokens allowExpression nextId).diagnostics := by
  obtain ⟨-, hfaults⟩ := parse_noted (T := fun _ => True) (fun _ (_ : _ ∈ tokens) => trivial)
    allowExpression nextId
  rw [hread] at hfaults
  exact hfaults.subset (List.mem_filterMap.2 ⟨_, h.mark [], rfl⟩)

theorem postfixForm_of_clean
    (hread : (parse tokens allowExpression nextId).program = .expression e)
    (hclean : (parse tokens allowExpression nextId).diagnostics = []) :
    ∃ text, e.postfixForm = .ok text := by
  cases hform : e.postfixForm with
  | ok text => exact ⟨text, rfl⟩
  | error d =>
    obtain ⟨place, operator, hfirst, -⟩ := Expr.postfixForm_eq_error.1 hform
    have hreported := parse_reports_dangling hread hfirst.dangles
    rw [hclean] at hreported
    exact nomatch hreported

end Reading

section Messages

/-- What a message says behind its line, from the closing bracket on. -/
theorem dropWhile_line (line : Nat) (rest : List Char) :
    ((toString line).toList ++ ']' :: rest).dropWhile (· ≠ ']') = ']' :: rest := by
  have hdigits : ∀ c ∈ (toString line).toList, decide (c ≠ ']') = true := by
    intro c hc
    have hdigit := (Decimal.isDigits_toString line).2 c hc
    exact decide_eq_true fun hbracket => absurd (hbracket ▸ hdigit) (by decide)
  rw [List.dropWhile_append_of_pos hdigits]
  rfl

theorem Diagnostic.text_append_ne_message (finding : Diagnostic) (d : DanglingOperator)
    (rest rest' : String) : finding.text ++ rest ≠ d.message ++ rest' := by
  intro h
  have hchars := congrArg String.toList h
  simp only [Diagnostic.text, DanglingOperator.message, String.toList_append,
    List.append_assoc] at hchars
  have htails := congrArg (List.dropWhile (· ≠ ']')) (List.append_cancel_left hchars)
  have herror : "] Error".toList = ']' :: " Error".toList := by decide
  have hrefusal : "] Can't print a binary operator without left operand '".toList =
    ']' :: " Can't print a binary operator without left operand '".toList := by decide
  rw [herror, hrefusal, List.cons_append, List.cons_append, dropWhile_line, dropWhile_line] at htails
  have hletter := congrArg (·[2]?) htails
  exact absurd hletter (by simp)

end Messages

theorem parseSource_ne_refusal (file : String) (form : Bool) (source : String)
    (d : DanglingOperator) : parseSource file form source ≠ ⟨"", d.message ++ "\n", 65⟩ := by
  unfold parseSource
  simp only
  split
  next hclean =>
    obtain ⟨-, hread⟩ := List.append_eq_nil_iff.1 (List.isEmpty_iff.1 hclean)
    split
    · exact fun h => nomatch congrArg Transcript.exitCode h
    next e hprogram =>
      obtain ⟨text, htext⟩ := postfixForm_of_clean hprogram hread
      rw [htext]
      split <;> exact fun h => nomatch congrArg Transcript.exitCode h
  next hfound =>
    obtain ⟨finding, others, hfindings⟩ :=
      List.exists_cons_of_ne_nil (mt List.isEmpty_iff.2 hfound)
    rw [hfindings]
    intro h
    have hstderr := congrArg Transcript.stderr h
    simp only [Transcript.lines, List.map_cons, String.join_cons, String.append_assoc] at hstderr
    exact finding.text_append_ne_message d _ _ hstderr

theorem Command.parse_ne_refusal (time : Float) (directory : Directory) (stdin file : String)
    (form : Bool) (d : DanglingOperator) :
    (Command.parse file form).transcript time directory stdin ≠ ⟨"", d.message ++ "\n", 65⟩ := by
  show withSource file (directory.read file) (parseSource file form) ≠ _
  unfold withSource
  split
  · exact fun h => nomatch congrArg Transcript.exitCode h
  · split
    · exact fun h => nomatch congrArg Transcript.exitCode h
    next source _ => exact parseSource_ne_refusal file form source d

/-- An expression has no postfix form exactly if an operator without a left operand stands in it, outside
of the bodies of functions, and then the first one is told. An expression that is read without a
diagnostic has its postfix form, so that the command never writes that one is refused. -/
theorem postfixForm_refusal :
    (∀ e : Expr,
      ((∃ d, e.postfixForm = .error d) ↔ ∃ place operator, e.Dangles place operator) ∧
      ∀ d, e.postfixForm = .error d ↔
        ∃ place operator, e.DanglesFirst place operator ∧ d = ⟨operator.line, operator.lexeme⟩) ∧
    (∀ (source : String) (nextId : NodeId) (e : Expr),
      faultsOf (scan source) = [] →
      (parse (tokensOf (scan source)) true nextId).diagnostics = [] →
      (parse (tokensOf (scan source)) true nextId).program = .expression e →
        ∃ text, e.postfixForm = .ok text) ∧
    ∀ (time : Float) (directory : Directory) (stdin file : String) (form : Bool)
      (d : DanglingOperator),
      (Command.parse file form).transcript time directory stdin ≠ ⟨"", d.message ++ "\n", 65⟩ := by
  refine ⟨fun e => ⟨⟨?_, ?_⟩, fun d => Expr.postfixForm_eq_error⟩,
    fun source nextId e _ hclean hread => postfixForm_of_clean hread hclean,
    Command.parse_ne_refusal⟩
  · rintro ⟨d, hd⟩
    obtain ⟨place, operator, hfirst, -⟩ := Expr.postfixForm_eq_error.1 hd
    exact ⟨place, operator, hfirst.dangles⟩
  · rintro ⟨place, operator, hdangles⟩
    obtain ⟨d, hd⟩ := hdangles.refused
    exact ⟨d, Expr.refusal?_eq_some.1 hd⟩

/-- The operator in the body is passed over, and the one on the second line comes before the last. -/
theorem postfixForm_refusal_behind_body :
    (∃ (e : Expr) (operator : Token), e.ReadFrom "fun () \x7b / a; \x7d,\n* b, + c" ∧
      e.DanglesFirst [0, 1] operator ∧ e.postfixForm = .error ⟨2, "*"⟩) ∧
    ∃ (e : Expr) (text : String),
      let source := "f(-a, fun () \x7b b; \x7d) ? c : d.e"
      faultsOf (scan source) = [] ∧ (parse (tokensOf (scan source)) true 0).diagnostics = [] ∧
        (parse (tokensOf (scan source)) true 0).program = .expression e ∧
        e.postfixForm = .ok text := by
  constructor
  · let name (id : NodeId) (lexeme : String) (line : Nat) : Expr :=
      .variable ⟨id, .synthetic .identifier lexeme line⟩
    let body : Expr := .lambda (.mk []
      [.expression (.binaryError (.synthetic .slash "/" 1) (name 0 "a" 1))])
    let star : Token := .synthetic .star "*" 2
    let others : Expr := .binary body (.synthetic .comma "," 1) (.binaryError star (name 1 "b" 2))
    let last : Expr := .binaryError (.synthetic .plus "+" 2) (name 2 "c" 2)
    let e : Expr := .binary others (.synthetic .comma "," 2) last
    have hprogram : (parse (tokensOf (scan "fun () \x7b / a; \x7d,\n* b, + c")) true 0).program =
        .expression e := by cbv
    have hothers : others.DanglesFirst ([body].length :: []) star :=
      .cons (fun _ _ => Expr.noConfusion) rfl (List.forall_mem_singleton.2 rfl)
        (Expr.danglesFirst_nil star _)
    have hfirst : e.DanglesFirst (([] : List Expr).length :: [1]) star :=
      .cons (fun _ _ => Expr.noConfusion) rfl (List.forall_mem_nil _) hothers
    refine ⟨e, star, ⟨true, 0, ?_⟩, hfirst, ?_⟩
    · rw [hprogram]
      exact Expr.mem_parts _
    · exact ((postfixForm_refusal.1 e).2 _).2 ⟨[0, 1], star, hfirst, rfl⟩
  · let source := "f(-a, fun () \x7b b; \x7d) ? c : d.e"
    have hfaults : faultsOf (scan source) = [] := by cbv
    have hclean : (parse (tokensOf (scan source)) true 0).diagnostics = [] := by cbv
    obtain ⟨e, hread⟩ : ∃ e, (parse (tokensOf (scan source)) true 0).program = .expression e :=
      ⟨_, by cbv⟩
    obtain ⟨text, htext⟩ := postfixForm_refusal.2.1 source 0 e hfaults hclean hread
    exact ⟨e, text, hfaults, hclean, hread, htext⟩

end Lox
