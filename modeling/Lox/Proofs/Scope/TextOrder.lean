import Lox.Proofs.Scope.Items
import Lox.Proofs.Syntax.Parsing

/-!
Where the names that a program declares and uses stand in its text, whatever is wrong with it. Those
that are declared in one scope are words of the text, in their order, and each name is a word of the
kind that its place asks for.
-/

namespace Lox

/-- The kind of word that is used in a role. -/
def Role.kind : Role → TokenKind
  | read | target => .identifier
  | this => .this
  | super => .super

namespace ScopeItem

mutual

/-- The words in an item, with the kind of each. -/
def words : ScopeItem → List (TokenKind × Token)
  | declare name => [(.identifier, name)]
  | parameter name => [(.identifier, name)]
  | use role ref => [(role.kind, ref.name)]
  | scope _ body => wordsAll body

def wordsAll : List ScopeItem → List (TokenKind × Token)
  | [] => []
  | item :: rest => item.words ++ wordsAll rest

end

theorem wordsAll_append (i j : List ScopeItem) : wordsAll (i ++ j) = wordsAll i ++ wordsAll j := by
  induction i with
  | nil => rfl
  | cons item rest ih => rw [List.cons_append, wordsAll, wordsAll, ih, List.append_assoc]

/-- The names of each scope stand in a text in their order, and each word is of its kind and such that
`T` holds of it. -/
structure Ordered (T : Token → Prop) (text : List Token) (items : List ScopeItem) : Prop where
  own : (own items).Sublist text
  scopes : ∀ body ∈ scopesAll items, (ScopeItem.own body).Sublist text
  words : ∀ w ∈ wordsAll items, w.2.kind = w.1 ∧ T w.2

/-- What some items do to names is part of what others do. -/
structure Part (items items' : List ScopeItem) : Prop where
  own : (own items).Sublist (ScopeItem.own items')
  scopes : scopesAll items ⊆ scopesAll items'
  words : wordsAll items ⊆ wordsAll items'

namespace Part

variable {i i' j : List ScopeItem}

theorem left (i j : List ScopeItem) : Part i (i ++ j) where
  own := by
    rw [own_append]
    exact List.sublist_append_left _ _
  scopes := by
    rw [scopesAll_append]
    exact List.subset_append_left _ _
  words := by
    rw [wordsAll_append]
    exact List.subset_append_left _ _

theorem right (i j : List ScopeItem) : Part j (i ++ j) where
  own := by
    rw [own_append]
    exact List.sublist_append_right _ _
  scopes := by
    rw [scopesAll_append]
    exact List.subset_append_right _ _
  words := by
    rw [wordsAll_append]
    exact List.subset_append_right _ _

/-- What declares nothing itself may as well come later. -/
theorem later (i k : List ScopeItem) (hj : ScopeItem.own j = []) : Part (i ++ (k ++ j)) (i ++ j ++ k) where
  own := by
    rw [own_append, own_append, own_append, own_append, hj, List.append_nil, List.append_nil]
  scopes := by
    rw [scopesAll_append, scopesAll_append, scopesAll_append, scopesAll_append, List.append_assoc]
    exact (List.perm_append_comm.append_left _).subset
  words := by
    rw [wordsAll_append, wordsAll_append, wordsAll_append, wordsAll_append, List.append_assoc]
    exact (List.perm_append_comm.append_left _).subset

theorem append_right (h : Part i i') (j : List ScopeItem) : Part (i ++ j) (i' ++ j) where
  own := by
    rw [own_append, own_append]
    exact h.own.append_right _
  scopes := by
    rw [scopesAll_append, scopesAll_append]
    exact List.append_subset.2 ⟨List.Subset.trans h.scopes (List.subset_append_left _ _),
      List.subset_append_right _ _⟩
  words := by
    rw [wordsAll_append, wordsAll_append]
    exact List.append_subset.2 ⟨List.Subset.trans h.words (List.subset_append_left _ _),
      List.subset_append_right _ _⟩

theorem trans (h : Part i i') (h' : Part i' j) : Part i j :=
  ⟨h.own.trans h'.own, List.Subset.trans h.scopes h'.scopes, List.Subset.trans h.words h'.words⟩

end Part

namespace Ordered

variable {T : Token → Prop} {text text' : List Token} {items items' : List ScopeItem}

theorem nil : Ordered T text [] := ⟨List.nil_sublist _, fun _ h => (nomatch h), fun _ h => (nomatch h)⟩

theorem part (h : Ordered T text items) (hpart : Part items' items) : Ordered T text items' :=
  ⟨hpart.own.trans h.own, fun body hbody => h.scopes body (hpart.scopes hbody),
    fun w hw => h.words w (hpart.words hw)⟩

theorem mono (h : Ordered T text items) (htext : text.Sublist text') : Ordered T text' items :=
  ⟨h.own.trans htext, fun body hbody => (h.scopes body hbody).trans htext, h.words⟩

theorem append (h : Ordered T text items) (h' : Ordered T text' items') :
    Ordered T (text ++ text') (items ++ items') where
  own := by
    rw [own_append]
    exact h.own.append h'.own
  scopes body hbody := by
    rw [scopesAll_append] at hbody
    rcases List.mem_append.1 hbody with hbody | hbody
    · exact (h.scopes body hbody).trans (List.sublist_append_left _ _)
    · exact (h'.scopes body hbody).trans (List.sublist_append_right _ _)
  words w hw := by
    rw [wordsAll_append] at hw
    exact (List.mem_append.1 hw).elim (h.words w) (h'.words w)

/-- What declares nothing itself may stand anywhere among the words. -/
theorem beside (h : Ordered T text items) (h' : Ordered T text items') (hown : ScopeItem.own items' = []) :
    Ordered T text (items ++ items') where
  own := by
    rw [own_append, hown, List.append_nil]
    exact h.own
  scopes body hbody := by
    rw [scopesAll_append] at hbody
    exact (List.mem_append.1 hbody).elim (h.scopes body) (h'.scopes body)
  words w hw := by
    rw [wordsAll_append] at hw
    exact (List.mem_append.1 hw).elim (h.words w) (h'.words w)

/-- A scope around the items. -/
theorem enclosed (h : Ordered T text items) (implicit : Option String) :
    Ordered T text [.scope implicit items] where
  own := List.nil_sublist _
  scopes body hbody := by
    rw [scopesAll, ScopeItem.scopes, scopesAll, List.append_nil] at hbody
    rcases List.mem_append.1 hbody with hbody | hbody
    · exact h.scopes body hbody
    · obtain rfl := List.mem_singleton.1 hbody
      exact h.own
  words w hw := by
    rw [wordsAll, ScopeItem.words, wordsAll, List.append_nil] at hw
    exact h.words w hw

theorem used {role : Role} {ref : Reference} (hkind : ref.name.kind = role.kind) (hT : T ref.name) :
    Ordered T text [.use role ref] := by
  refine ⟨List.nil_sublist _, fun _ h => (nomatch h), fun w hw => ?_⟩
  obtain rfl := List.mem_singleton.1 hw
  exact ⟨hkind, hT⟩

theorem named {item : ScopeItem} {name : Token} (hitem : item = .declare name ∨ item = .parameter name)
    (hkind : name.kind = .identifier) (hT : T name) : Ordered T [name] [item] := by
  rcases hitem with rfl | rfl
  all_goals
    refine ⟨.refl _, fun _ h => (nomatch h), fun w hw => ?_⟩
    obtain rfl := List.mem_singleton.1 hw
    exact ⟨hkind, hT⟩

end Ordered

end ScopeItem

open ScopeItem

section Own

variable {cls : ClassKind}

theorem own_lambda (cls : ClassKind) (f : Lambda) : own (f.items cls) = [] := by
  obtain ⟨params, body⟩ := f
  rfl

mutual

/-- Nothing in an expression declares a name around it. -/
theorem own_expr : ∀ e : Expr, own (e.items cls) = []
  | .literal _ => rfl
  | .grouping inner => own_expr inner
  | .unary _ right => own_expr right
  | .binaryError _ right => own_expr right
  | .get object _ => own_expr object
  | .variable _ => rfl
  | .lambda function => own_lambda cls function
  | .binary left _ right => by
    rw [Expr.items, own_append, own_expr left, own_expr right]
    rfl
  | .conditional condition thenBranch elseBranch => by
    rw [Expr.items, own_append, own_append, own_expr condition, own_expr thenBranch,
      own_expr elseBranch]
    rfl
  | .assign target value => by
    rw [Expr.items, own_append, own_expr value]
    rfl
  | .call callee _ arguments => by
    rw [Expr.items, own_append, own_expr callee, own_exprs arguments]
    rfl
  | .set object _ value => by
    rw [Expr.items, own_append, own_expr value, own_expr object]
    rfl
  | .this ref => by
    rw [Expr.items]
    split <;> rfl
  | .super ref _ => by
    rw [Expr.items]
    split <;> rfl

theorem own_exprs : ∀ es : List Expr, own (Expr.itemsAll cls es) = []
  | [] => rfl
  | e :: rest => by
    rw [Expr.itemsAll, own_append, own_expr e, own_exprs rest]
    rfl

end

theorem own_optionalExpr (e? : Option Expr) : own (Expr.items? cls e?) = [] := by
  cases e? with
  | none => rfl
  | some e => exact own_expr e

end Own

section Class

variable {T : Token → Prop} {text : List Token} {cls : ClassKind}

/-- The scopes of a class, around what stands in it. -/
theorem ordered_class {name : Token} {superclass : Option Reference} {own statics : List FunctionDecl}
    (h : Ordered T text ([.declare name] ++ (superclass.map (ScopeItem.use .read)).toList ++
      (FunctionDecl.itemsAll (if superclass.isSome then .subclass else .rootClass) own ++
        FunctionDecl.itemsAll .staticMethod statics))) :
    Ordered T text ((Stmt.class name superclass own statics).items cls) := by
  have hmethods := h.part (.right _ _)
  have hreceiver := (hmethods.part (.left _ _)).enclosed (some "this")
  have hbody := hreceiver.beside (hmethods.part (.right _ _)) (own_methods _ statics)
  have hnames := h.part (.left _ _)
  cases superclass with
  | none => exact hnames.beside hbody (own_methods _ statics)
  | some ref => exact hnames.beside (hbody.enclosed (some "super")) rfl

end Class

end Lox
