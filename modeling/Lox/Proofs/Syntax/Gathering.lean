import Lox.Proofs.Scope.TextOrder
import Lox.Proofs.Syntax.Keeping

/-!
What the parser makes of any text has its names in the order of the text. Each reader passes over some
words, and the names in what it gives are among them.
-/

namespace Lox

open ScopeItem

/-- The items of something that has been read, by the class that it stands in. -/
abbrev Itemized := ClassKind → List ScopeItem

def Itemized.none : Itemized := fun _ => []

/-- Of a whole text this has been read up to some place, and its names are words from before. -/
structure Gathered (T : Token → Prop) (whole : List Token) (c : Cursor) (items : Itemized) : Prop where
  words : ∀ t ∈ c.rest, T t
  before : ∃ text, whole = text ++ c.rest ∧ ∀ cls, Ordered T text (items cls)

namespace Gathered

variable {T : Token → Prop} {whole : List Token} {c d : Cursor} {items items' : Itemized}

theorem change (h : Gathered T whole c items)
    (hitems : ∀ text cls, Ordered T text (items cls) → Ordered T text (items' cls)) :
    Gathered T whole c items' := by
  obtain ⟨text, htext, hordered⟩ := h.before
  exact ⟨h.words, text, htext, fun cls => hitems text cls (hordered cls)⟩

/-- Nothing has been read yet. -/
theorem start (hwords : ∀ t ∈ c.rest, T t) : Gathered T c.rest c .none :=
  ⟨hwords, [], rfl, fun _ => .nil⟩

theorem append (h : Gathered T whole c items) (h' : Gathered T c.rest d items') :
    Gathered T whole d fun cls => items cls ++ items' cls := by
  obtain ⟨text, htext, hordered⟩ := h.before
  obtain ⟨text', htext', hordered'⟩ := h'.before
  refine ⟨h'.words, text ++ text', ?_, fun cls => (hordered cls).append (hordered' cls)⟩
  rw [htext, htext', List.append_assoc]

/-- More of the text is passed over. -/
theorem pass (h : Gathered T whole c items) (dropped : List Token) (hrest : c.rest = dropped ++ d.rest) :
    Gathered T whole d items := by
  obtain ⟨text, htext, hordered⟩ := h.before
  refine ⟨fun t ht => h.words t (hrest ▸ List.mem_append_right _ ht), text ++ dropped, ?_, fun cls => ?_⟩
  · rw [htext, hrest, List.append_assoc]
  · exact (hordered cls).mono (List.sublist_append_left _ _)

end Gathered

namespace Itemized

open Account

variable {T : Token → Prop}

/-- The names that have been read since some place in the text. -/
def account (T : Token → Prop) : Account T where
  Origin := List Token
  Entry := Itemized
  empty := none
  beside items items' := fun cls => items cls ++ items' cls
  origin c := c.rest
  Holds := Gathered T
  empty_beside _ := rfl
  beside_empty items := funext fun cls => List.append_nil (items cls)
  beside_assoc _ _ _ := funext fun _ => List.append_assoc ..
  words h := h.words
  left h := h.change fun _ _ hordered => hordered.part (.left _ _)
  start h := .start h.words
  append := Gathered.append
  pass dropped _ hr h := h.pass dropped hr
  report _ _ h := ⟨h.words, h.before⟩
  number h := ⟨h.words, h.before⟩

/-- The class that a method stands in. -/
def receiver (isStatic inherits : Bool) : ClassKind :=
  if isStatic then .staticMethod else if inherits then .subclass else .rootClass

def entries (T : Token → Prop) : (account T).Entries where
  expr e := fun cls => e.items cls
  stmt _ s := fun cls => s.items cls
  declaration _ s := fun cls => s.items cls
  loopBody s := fun cls => s.items cls
  function f := fun cls => f.items cls
  method isStatic inherits decl := fun _ => decl.function.items (receiver isStatic inherits)
  superclass ref := fun _ => [.use .read ref]
  name t := fun _ => [.declare t]
  parameter t := fun _ => [.parameter t]
  program p := fun _ => p.items

theorem turns_ordered {items items' : Itemized}
    (h : ∀ text cls, Ordered T text (items cls) → Ordered T text (items' cls)) :
    (account T).Turns items items' := fun _ _ hc => hc.change h

theorem turns_of {items items' : Itemized} (h : ∀ cls, Part (items' cls) (items cls)) :
    (account T).Turns items items' := turns_ordered fun _ cls hordered => hordered.part (h cls)

/-- What stands in a class of another kind. -/
theorem turns_within {items : Itemized} (f : ClassKind → ClassKind) :
    (account T).Turns items fun cls => items (f cls) := fun _ _ hc => by
  obtain ⟨text, htext, hordered⟩ := hc.before
  exact ⟨hc.words, text, htext, fun cls => hordered (f cls)⟩

/-- A word that is declared or used is put down where it is read. -/
theorem takes_named {t : Token} (ht : t.Among T [.identifier]) {item : ScopeItem}
    (hitem : item = .declare t ∨ item = .parameter t) : (account T).Takes t fun _ => [item] := by
  intro whole c rest hr hc
  have hnamed : Gathered T c.rest { c with rest } fun _ => [item] :=
    ⟨fun u hu => hc.words u (hr ▸ List.mem_cons_of_mem t hu), [t], hr, fun _ =>
      .named hitem (List.mem_singleton.1 ht.kind) ht.word⟩
  exact hc.append hnamed

theorem beside_eq (items items' : Itemized) :
    (account T).beside items items' = fun cls => items cls ++ items' cls := rfl

theorem all_exprs (es : List Expr) :
    (account T).all (fun e cls => Expr.items cls e) es = fun cls => Expr.itemsAll cls es := by
  induction es with
  | nil => rfl
  | cons e rest ih =>
    funext cls
    exact congrArg (e.items cls ++ ·) (congrFun ih cls)

theorem all_stmts (body : List Stmt) :
    (account T).all (fun s cls => Stmt.items cls s) body = fun cls => Stmt.itemsAll cls body := by
  induction body with
  | nil => rfl
  | cons s rest ih =>
    funext cls
    exact congrArg (s.items cls ++ ·) (congrFun ih cls)

theorem all_methods (isStatic inherits : Bool) (decls : List FunctionDecl) :
    (account T).all ((entries T).method isStatic inherits) decls =
      fun _ => FunctionDecl.itemsAll (receiver isStatic inherits) decls := by
  induction decls with
  | nil => rfl
  | cons decl rest ih =>
    obtain ⟨name, f⟩ := decl
    funext cls
    exact congrArg (f.items (receiver isStatic inherits) ++ ·) (congrFun ih cls)

theorem all_parameters (params : List Token) :
    (account T).all (fun t _ => [ScopeItem.parameter t]) params = fun _ => params.map .parameter := by
  induction params with
  | nil => rfl
  | cons t rest ih =>
    funext cls
    exact congrArg (.parameter t :: ·) (congrFun ih cls)

theorem optional_expr (e? : Option Expr) :
    (account T).optional (fun e cls => Expr.items cls e) e? = fun cls => Expr.items? cls e? := by
  cases e? <;> rfl

theorem optional_stmt (s? : Option Stmt) :
    (account T).optional (fun s cls => Stmt.items cls s) s? = fun cls => Stmt.items? cls s? := by
  cases s? <;> rfl

/-- An occurrence of a name is a word of the kind that its place asks for. -/
theorem turns_used (role : Role) (ref : Reference) {items items' : Itemized}
    (hname : ref.name.Among T [role.kind])
    (hitems : ∀ cls, items' cls = [.use role ref] ∨ items' cls = []) :
    (account T).Turns items items' := turns_ordered fun text cls _ => by
  rcases hitems cls with hused | hnone
  · rw [hused]
    exact .used (List.mem_singleton.1 hname.kind) hname.word
  · rw [hnone]
    exact .nil

theorem ite_cases {p : Prop} [Decidable p] (items : List ScopeItem) :
    (if p then items else []) = items ∨ (if p then items else []) = [] := by
  split
  · exact .inl rfl
  · exact .inr rfl

theorem composes : (entries T).Composes where
  name ht := takes_named ht (.inl rfl)
  parameter ht := takes_named ht (.inr rfl)
  nil := .refl _
  boolean _ := .refl _
  literal _ _ := .refl _
  grouping _ := .refl _
  unary _ _ := .refl _
  binary _ _ _ _ := .refl _
  binaryError _ _ := (Turns.refl _).reports _ _
  conditional _ _ _ := by
    simp only [entries, beside_eq, Expr.items, List.append_assoc]
    exact .refl _
  «variable» ht := .of_turns fun id => turns_used .read ⟨id, _⟩ ht fun _ => .inl rfl
  -- The name on the left is used last.
  assign ref value := .of_turns fun id => turns_of fun cls => by
    have hlater := Part.later [] (value.items cls) (j := [.use .target ⟨id, ref.name⟩]) rfl
    have hsame : Part ([.use .target ⟨id, ref.name⟩] ++ value.items cls)
        ([.use .read ref] ++ value.items cls) := ⟨.refl _, fun _ h => h, fun _ h => h⟩
    exact hlater.trans hsame
  call _ _ _ _ := by
    simp only [entries, all_exprs]
    exact .refl _
  get _ _ _ := .refl _
  set object _ value := turns_of fun cls => Part.later [] (value.items cls) (own_expr object)
  this ht := .of_turns fun id => turns_used .this ⟨id, _⟩ ht fun _ => ite_cases _
  super ht _ := .of_turns fun id => turns_used .super ⟨id, _⟩ ht fun _ => ite_cases _
  lambda _ := .refl _
  expression _ _ := .refl _
  print _ _ := .refl _
  block _ _ := by
    simp only [entries, all_stmts]
    exact turns_ordered fun _ _ hordered => hordered.enclosed .none
  ite _ _ _ _ := by
    simp only [entries, beside_eq, optional_stmt, Stmt.items, List.append_assoc]
    exact .refl _
  loopBody _ := .refl _
  -- The increment stands before the body, and the items of the body come first.
  loop _ _ increment _ := by
    simp only [entries, beside_eq, optional_expr]
    exact turns_of fun _ => .later _ _ (own_optionalExpr increment)
  initialized _ _ _ increment _ := by
    simp only [entries, beside_eq, optional_expr]
    refine turns_ordered fun _ cls hordered => ?_
    have hloop := (hordered.part (.later _ _ (own_optionalExpr increment))).enclosed .none
    rw [List.append_assoc] at hloop
    simp only [Stmt.items, Stmt.itemsAll, List.append_nil]
    exact hloop
  «break» _ := .refl _
  «continue» _ := .refl _
  breakError _ := (Turns.refl _).reports _ _
  continueError _ := (Turns.refl _).reports _ _
  «return» _ _ _ := by
    simp only [entries, optional_expr]
    exact .refl _
  statement _ _ := .refl _
  var _ _ _ := by
    simp only [entries, optional_expr]
    exact .refl _
  named _ _ _ := .refl _
  superclass ht := .of_turns fun id => turns_used .read ⟨id, _⟩ ht fun _ => .inl rfl
  method isStatic inherits _ _ := (turns_of fun _ => .right _ _).trans
    (turns_within fun _ => receiver isStatic inherits)
  statics inherits decl own statics := turns_of fun cls => by
    have hown := Part.later [] ((account T).all ((entries T).method false inherits) own cls)
      (own_lambda .staticMethod decl.function)
    have hpart := hown.append_right ((account T).all ((entries T).method true inherits) statics cls)
    rwa [List.nil_append, List.nil_append, List.append_assoc, List.append_assoc] at hpart
  «class» _ name superclass own statics := by
    rw [all_methods, all_methods]
    refine turns_ordered fun text cls hordered => ?_
    cases superclass with
    | none => exact @ordered_class T text cls name .none own statics hordered
    | some ref => exact @ordered_class T text cls name (some ref) own statics hordered
  body _ _ := by
    simp only [entries, beside_eq, all_parameters, all_stmts]
    exact turns_ordered fun _ _ hordered => hordered.enclosed .none
  statements _ := by
    simp only [entries, all_stmts]
    exact turns_within fun _ => .noClass
  single _ := turns_within fun _ => .noClass

end Itemized

/-- The names of a program are words of its text, those of each scope in their order, and each one is of
the kind that its place asks for. -/
theorem parse_ordered {T : Token → Prop} {tokens : List Token} (hT : ∀ t ∈ tokens, T t)
    (allowExpression : Bool) (nextId : NodeId) :
    Ordered T tokens (parse tokens allowExpression nextId).program.items := by
  let c := Cursor.ofTokens tokens nextId
  have hstart : Gathered T c.rest c .none :=
    .start fun t ht => hT t (rest_ofTokens_subset tokens nextId ht)
  obtain ⟨d, _, hgathered⟩ := Account.parse_keeps Itemized.composes tokens allowExpression nextId hstart
  obtain ⟨text, htext, hordered⟩ := hgathered.before
  refine (hordered .noClass).mono ?_
  have hrest : c.rest.Sublist tokens := List.takeWhile_sublist _
  refine List.Sublist.trans ?_ hrest
  rw [show c.rest = text ++ d.rest from htext]
  exact List.sublist_append_left _ _

end Lox
