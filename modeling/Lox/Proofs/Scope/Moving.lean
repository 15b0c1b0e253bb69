import Lox.Proofs.Scope.Walk
import Lox.Proofs.Syntax.Embedding
import Mathlib.Data.List.Forall2

/-!
Resolution does not depend on where a text stands: on its lines, on the numbers of its occurrences, on
what was reported and on which hops were found before it.
-/

namespace Lox

def Binding.down (k : Nat) (b : Binding) : Binding := { b with token := b.token.down k }

/-- The same names, declared further down. -/
def Scope.Moved (k : Nat) (s s' : Scope) : Prop :=
  ∀ name : String, s'[name]? = (s[name]?).map (Binding.down k)

/-- Two states of the resolution of one text in two places. In the second place other diagnostics come
before, and `base` are the hops found before. -/
structure Resolution.Moved (k j : Nat) (base : NodeId → Option Nat) (log : List Diagnostic)
    (r r' : Resolution) : Prop where
  scopes : List.Forall₂ (Scope.Moved k) r.scopes r'.scopes
  hops : ∀ id, r'.hops[id + j]? = r.hops[id]?.or (base id)
  log : r'.log = r.log.map (Diagnostic.down k) ++ log

section Scopes

variable {k : Nat} {s s' : Scope}

theorem reportedBefore_down (a b : Token) :
    (a.down k).reportedBefore (b.down k) = a.reportedBefore b := by
  have hlt : (a.line + k < b.line + k : Bool) = (a.line < b.line : Bool) := by simp
  have heq : (a.line + k == b.line + k) = (a.line == b.line) := by
    rw [Bool.eq_iff_iff, beq_iff_eq, beq_iff_eq]
    omega
  show ((a.line + k < b.line + k : Bool) || (a.line + k == b.line + k && _)) = _
  rw [hlt, heq]
  rfl

namespace Scope.Moved

theorem empty : Moved k ∅ ∅ := fun _ => rfl

theorem contains (h : s.Moved k s') (name : String) : s'.contains name = s.contains name := by
  rw [Std.TreeMap.contains_eq_isSome_getElem?, Std.TreeMap.contains_eq_isSome_getElem?, h name]
  cases s[name]? <;> rfl

theorem insert (h : s.Moved k s') (name : String) (b : Binding) :
    Moved k (s.insert name b) (s'.insert name (b.down k)) := by
  intro x
  rw [Std.TreeMap.getElem?_insert, Std.TreeMap.getElem?_insert]
  by_cases hx : compare name x = .eq
  · rw [if_pos hx, if_pos hx]
    rfl
  · rw [if_neg hx, if_neg hx]
    exact h x

theorem modify (h : s.Moved k s') (name : String) {f : Binding → Binding}
    (hf : ∀ b, f (b.down k) = (f b).down k) : Moved k (s.modify name f) (s'.modify name f) := by
  intro x
  rw [Std.TreeMap.getElem?_modify, Std.TreeMap.getElem?_modify, h x, h name]
  by_cases hx : compare name x = .eq
  · rw [if_pos hx, if_pos hx]
    cases s[name]? with
    | none => rfl
    | some b => exact congrArg some (hf b)
  · rw [if_neg hx, if_neg hx]

theorem values (h : s.Moved k s') : s'.values = s.values.map (Binding.down k) := by
  have hequiv : Std.TreeMap.Equiv s' (s.map fun _ b => b.down k) :=
    .of_forall_constGet?_eq fun x => by rw [Std.TreeMap.getElem?_map, h x]
  rw [values_eq_toList, values_eq_toList, hequiv.toList_eq, Std.TreeMap.toList_map, List.map_map,
    List.map_map]
  rfl

/-- Names are reported in one order, wherever the text stands. -/
theorem unused (h : s.Moved k s') : s'.unused = s.unused.map (Token.down k) := by
  have hfilter (bs : List Binding) :
      ((bs.map (Binding.down k)).filter (!·.used)).map Binding.token =
        ((bs.filter (!·.used)).map Binding.token).map (Token.down k) := by
    rw [List.filter_map, List.map_map, List.map_map]
    rfl
  unfold Scope.unused
  rw [h.values, hfilter]
  exact (List.map_mergeSort fun a _ b _ => (reportedBefore_down a b).symm).symm

end Scope.Moved

end Scopes

namespace Resolution.Moved

variable {k j : Nat} {base : NodeId → Option Nat} {log : List Diagnostic} {r r' : Resolution}

theorem report (h : Moved k j base log r r') (t : Token) (fault : ScopeFault) :
    Moved k j base log (r.report t fault) (r'.report (t.down k) fault) :=
  ⟨h.scopes, h.hops, congrArg _ h.log⟩

theorem innermost (h : Moved k j base log r r') : r.scopes = [] ∧ r'.scopes = [] ∨
    ∃ s rest s' rest', r.scopes = s :: rest ∧ r'.scopes = s' :: rest' ∧ s.Moved k s' ∧
      List.Forall₂ (Scope.Moved k) rest rest' := by
  have hscopes := h.scopes
  cases hr : r.scopes with
  | nil =>
    rw [hr, List.forall₂_nil_left_iff] at hscopes
    exact .inl ⟨rfl, hscopes⟩
  | cons s rest =>
    rw [hr] at hscopes
    obtain ⟨s', rest', hs, hrest, hr'⟩ := List.forall₂_cons_left_iff.1 hscopes
    exact .inr ⟨s, rest, s', rest', rfl, hr', hs, hrest⟩

theorem openScope (h : Moved k j base log r r') : Moved k j base log r.openScope r'.openScope :=
  ⟨.cons .empty h.scopes, h.hops, h.log⟩

theorem closeScope (h : Moved k j base log r r') :
    Moved k j base log r.closeScope r'.closeScope := by
  have hfold (ts : List Token) {r r' : Resolution} (h : Moved k j base log r r') :
      Moved k j base log (ts.foldl (fun r t => r.report t (.neverUsed t.lexeme)) r)
        ((ts.map (Token.down k)).foldl (fun r t => r.report t (.neverUsed t.lexeme)) r') := by
    induction ts generalizing r r' with
    | nil => exact h
    | cons t ts ih => exact ih (h.report t _)
  unfold Resolution.closeScope
  obtain ⟨hr, hr'⟩ | ⟨s, rest, s', rest', hr, hr', hs, hrest⟩ := h.innermost
  · rw [hr, hr']
    exact h
  · rw [hr, hr']
    simp only
    rw [hs.unused]
    exact hfold _ ⟨hrest, h.hops, h.log⟩

theorem modifyInnermost (h : Moved k j base log r r') (name : String) {f : Binding → Binding}
    (hf : ∀ b, f (b.down k) = (f b).down k) :
    Moved k j base log (r.modifyInnermost name f) (r'.modifyInnermost name f) := by
  unfold Resolution.modifyInnermost
  obtain ⟨hr, hr'⟩ | ⟨s, rest, s', rest', hr, hr', hs, hrest⟩ := h.innermost
  · rw [hr, hr']
    exact h
  · rw [hr, hr']
    exact ⟨.cons (hs.modify name hf) hrest, h.hops, h.log⟩

theorem declare (h : Moved k j base log r r') (name : Token) :
    Moved k j base log (r.declare name) (r'.declare (name.down k)) := by
  unfold Resolution.declare
  obtain ⟨hr, hr'⟩ | ⟨s, rest, s', rest', hr, hr', hs, hrest⟩ := h.innermost
  · rw [hr, hr']
    exact h
  · have hdeclared : Moved k j base log
        { r with scopes := s.insert name.lexeme ⟨false, false, name⟩ :: rest }
        { r' with scopes := s'.insert name.lexeme ⟨false, false, name.down k⟩ :: rest' } :=
      ⟨.cons (hs.insert name.lexeme ⟨false, false, name⟩) hrest, h.hops, h.log⟩
    have hcontains : s'.contains (name.down k).lexeme = s.contains name.lexeme := hs.contains _
    rw [hr, hr']
    simp only
    by_cases hc : s.contains name.lexeme = true
    · rw [if_pos hc, if_pos (hcontains.trans hc)]
      exact hdeclared.report name _
    · rw [if_neg hc, if_neg (by rwa [hcontains])]
      exact hdeclared

theorem define (h : Moved k j base log r r') (name : Token) :
    Moved k j base log (r.define name) (r'.define (name.down k)) :=
  h.modifyInnermost _ fun _ => rfl

theorem declareParameter (h : Moved k j base log r r') (name : Token) :
    Moved k j base log (r.declareParameter name) (r'.declareParameter (name.down k)) :=
  ((h.declare name).define name).modifyInnermost _ fun _ => rfl

theorem bindImplicit (h : Moved k j base log r r') (lexeme : String) (className : Token) :
    Moved k j base log (r.bindImplicit lexeme className)
      (r'.bindImplicit lexeme (className.down k)) := by
  unfold Resolution.bindImplicit
  obtain ⟨hr, hr'⟩ | ⟨s, rest, s', rest', hr, hr', hs, hrest⟩ := h.innermost
  · rw [hr, hr']
    exact h
  · rw [hr, hr']
    exact ⟨.cons (hs.insert lexeme ⟨true, true, .synthetic className.kind lexeme className.line⟩)
      hrest, h.hops, h.log⟩

theorem inOwnInitializer (h : Moved k j base log r r') (name : Token) :
    r'.inOwnInitializer (name.down k) = r.inOwnInitializer name := by
  unfold Resolution.inOwnInitializer
  obtain ⟨hr, hr'⟩ | ⟨s, rest, s', rest', hr, hr', hs, hrest⟩ := h.innermost
  · rw [hr, hr']
    rfl
  · rw [hr, hr']
    simp only [List.head?_cons, Option.bind_some, Token.down_lexeme]
    rw [hs name.lexeme]
    cases s[name.lexeme]? <;> rfl

theorem findIdx? (name : String) {ss ss' : List Scope} (h : List.Forall₂ (Scope.Moved k) ss ss') :
    ss'.findIdx? (·.contains name) = ss.findIdx? (·.contains name) := by
  induction h with
  | nil => rfl
  | cons hs hrest ih =>
    rw [List.findIdx?_cons, List.findIdx?_cons, hs.contains, ih]

theorem modifyAt (name : String) {f : Binding → Binding} (hf : ∀ b, f (b.down k) = (f b).down k)
    {ss ss' : List Scope} (h : List.Forall₂ (Scope.Moved k) ss ss') (depth : Nat) :
    List.Forall₂ (Scope.Moved k) (ss.modify depth (·.modify name f))
      (ss'.modify depth (·.modify name f)) := by
  induction h generalizing depth with
  | nil =>
    rw [List.modify_nil]
    exact .nil
  | cons hs hrest ih =>
    cases depth with
    | zero => exact .cons (hs.modify name hf) hrest
    | succ depth => exact .cons hs (ih depth)

theorem record (h : Moved k j base log r r') (ref : Reference) (isRead : Bool) :
    Moved k j base log (r.record ref isRead)
      (r'.record (ref.relabel (Token.down k) (· + j)) isRead) := by
  unfold Resolution.record
  simp only [show (ref.relabel (Token.down k) (· + j)).name.lexeme = ref.name.lexeme from rfl,
    findIdx? _ h.scopes]
  cases r.scopes.findIdx? (·.contains ref.name.lexeme) with
  | none => exact h
  | some depth =>
    have hmark (b : Binding) : { b.down k with used := (b.down k).used || isRead } =
        Binding.down k { b with used := b.used || isRead } := rfl
    refine ⟨modifyAt ref.name.lexeme hmark h.scopes depth, fun id => ?_, h.log⟩
    show (r'.hops.insert (ref.id + j) depth)[id + j]? = (r.hops.insert ref.id depth)[id]?.or (base id)
    rw [Std.TreeMap.getElem?_insert, Std.TreeMap.getElem?_insert]
    by_cases hid : ref.id = id
    · simp [hid]
    · have hmoved : ref.id + j ≠ id + j := fun heq => hid (Nat.add_right_cancel heq)
      rw [if_neg (by simpa using hid), if_neg (by simpa using hmoved), h.hops id]

theorem readVariable (h : Moved k j base log r r') (ref : Reference) :
    Moved k j base log (r.readVariable ref)
      (r'.readVariable (ref.relabel (Token.down k) (· + j))) := by
  unfold Resolution.readVariable
  show Moved k j base log _ (Resolution.record _ true
    (if r'.inOwnInitializer (ref.name.down k) then _ else r'))
  rw [h.inOwnInitializer]
  by_cases hown : r.inOwnInitializer ref.name = true
  · simp only [if_pos hown]
    exact (h.report ref.name _).record ref true
  · simp only [if_neg hown]
    exact h.record ref true

theorem readKeyword (h : Moved k j base log r r') (ref : Reference) (fault? : Option ScopeFault) :
    Moved k j base log (r.readKeyword ref fault?)
      (r'.readKeyword (ref.relabel (Token.down k) (· + j)) fault?) := by
  cases fault? with
  | some fault => exact h.report ref.name fault
  | none => exact h.record ref true

theorem returnFaults (h : Moved k j base log r r') (keyword : Token) (hasValue : Bool)
    (body : BodyKind) :
    Moved k j base log (r.returnFaults keyword hasValue body)
      (r'.returnFaults (keyword.down k) hasValue body) := by
  unfold Resolution.returnFaults
  by_cases htop : body = .topLevel
  · rw [if_pos htop, if_pos htop]
    exact h.report keyword _
  · rw [if_neg htop, if_neg htop]
    by_cases hinit : body = .initializer ∧ hasValue = true
    · rw [if_pos hinit, if_pos hinit]
      exact h.report keyword _
    · rw [if_neg hinit, if_neg hinit]
      exact h

theorem openSuper (h : Moved k j base log r r') (className : Token) (superclass : Option Reference) :
    Moved k j base log (r.openSuper className superclass)
      (r'.openSuper (className.down k)
        (superclass.map (·.relabel (Token.down k) (· + j)))) := by
  cases superclass with
  | none => exact h
  | some ref =>
    have hreported : Moved k j base log
        (if ref.name.lexeme = className.lexeme then r.report ref.name .inheritsFromItself else r)
        (if ref.name.lexeme = className.lexeme then r'.report (ref.name.down k) .inheritsFromItself
          else r') := by
      by_cases hself : ref.name.lexeme = className.lexeme
      · rw [if_pos hself, if_pos hself]
        exact h.report ref.name _
      · rw [if_neg hself, if_neg hself]
        exact h
    exact ((hreported.readVariable ref).openScope).bindImplicit "super" className

theorem parameters (params : List Token) (h : Moved k j base log r r') :
    Moved k j base log (params.foldl (fun r p => r.declareParameter p) r)
      ((params.map (Token.down k)).foldl (fun r p => r.declareParameter p) r') := by
  induction params generalizing r r' with
  | nil => exact h
  | cons p params ih => exact ih (h.declareParameter p)

mutual

theorem expr (s : Surroundings) : ∀ (e : Expr) {r r' : Resolution}, Moved k j base log r r' →
    Moved k j base log (Resolution.expr s e r)
      (Resolution.expr s (e.relabel (Token.down k) (· + j)) r')
  | .literal _, _, _, h => h
  | .grouping inner, _, _, h => expr s inner h
  | .unary _ right, _, _, h => expr s right h
  | .binaryError _ right, _, _, h => expr s right h
  | .binary left _ right, _, _, h => expr s right (expr s left h)
  | .conditional condition thenBranch elseBranch, _, _, h =>
    expr s elseBranch (expr s thenBranch (expr s condition h))
  | .variable ref, _, _, h => h.readVariable ref
  | .assign target value, _, _, h => (expr s value h).record target false
  | .call callee _ arguments, _, _, h => exprs s arguments (expr s callee h)
  | .get object _, _, _, h => expr s object h
  | .set object _ value, _, _, h => expr s object (expr s value h)
  | .this ref, _, _, h => h.readKeyword ref _
  | .super ref _, _, _, h => h.readKeyword ref _
  | .lambda function, _, _, h => lambda { s with body := .function } function h

theorem exprs (s : Surroundings) : ∀ (es : List Expr) {r r' : Resolution},
    Moved k j base log r r' → Moved k j base log (Resolution.exprs s es r)
      (Resolution.exprs s (Expr.relabelAll (Token.down k) (· + j) es) r')
  | [], _, _, h => h
  | e :: rest, _, _, h => exprs s rest (expr s e h)

theorem optionalExpr (s : Surroundings) : ∀ (e? : Option Expr) {r r' : Resolution},
    Moved k j base log r r' → Moved k j base log (Resolution.optionalExpr s e? r)
      (Resolution.optionalExpr s (Expr.relabel? (Token.down k) (· + j) e?) r')
  | none, _, _, h => h
  | some e, _, _, h => expr s e h

theorem stmt (s : Surroundings) : ∀ (st : Stmt) {r r' : Resolution}, Moved k j base log r r' →
    Moved k j base log (Resolution.stmt s st r)
      (Resolution.stmt s (st.relabel (Token.down k) (· + j)) r')
  | .expression e, _, _, h => expr s e h
  | .print e, _, _, h => expr s e h
  | .var name initializer, _, _, h => (optionalExpr s initializer (h.declare name)).define name
  | .block body, _, _, h => (stmts s body h.openScope).closeScope
  | .ite condition thenBranch elseBranch, _, _, h =>
    optionalStmt s elseBranch (stmt s thenBranch (expr s condition h))
  | .loop condition body increment, _, _, h =>
    optionalExpr s increment (stmt s body (expr s condition h))
  | .break _, _, _, h => h
  | .continue _, _, _, h => h
  | .breakError _, _, _, h => h
  | .continueError _, _, _, h => h
  | .function (.mk name function), _, _, h =>
    lambda { s with body := .function } function ((h.declare name).define name)
  | .return keyword value, _, _, h => by
    have hvalue : (Expr.relabel? (Token.down k) (· + j) value).isSome = value.isSome := by
      cases value <;> rfl
    simp only [Stmt.relabel, Resolution.stmt, hvalue]
    exact optionalExpr s value (h.returnFaults keyword value.isSome s.body)
  | .class name superclass own statics, _, _, h => by
    have hinherits : (superclass.map (·.relabel (Token.down k) (· + j))).isSome =
        superclass.isSome := Option.isSome_map
    have hopen := ((h.declare name).define name).openSuper name superclass
    simp only [Stmt.relabel, Resolution.stmt, hinherits]
    have hstatics := staticMethods { s with cls := .staticMethod } statics
      (methods { s with cls := if superclass.isSome = true then .subclass else .rootClass } own
        (hopen.openScope.bindImplicit "this" name)).closeScope
    by_cases hsuper : superclass.isSome = true
    · simp only [if_pos hsuper] at hstatics ⊢
      exact hstatics.closeScope
    · simp only [if_neg hsuper] at hstatics ⊢
      exact hstatics

theorem optionalStmt (s : Surroundings) : ∀ (st? : Option Stmt) {r r' : Resolution},
    Moved k j base log r r' → Moved k j base log (Resolution.optionalStmt s st? r)
      (Resolution.optionalStmt s (Stmt.relabel? (Token.down k) (· + j) st?) r')
  | none, _, _, h => h
  | some st, _, _, h => stmt s st h

theorem stmts (s : Surroundings) : ∀ (body : List Stmt) {r r' : Resolution},
    Moved k j base log r r' → Moved k j base log (Resolution.stmts s body r)
      (Resolution.stmts s (Stmt.relabelAll (Token.down k) (· + j) body) r')
  | [], _, _, h => h
  | st :: rest, _, _, h => stmts s rest (stmt s st h)

theorem lambda (s : Surroundings) : ∀ (f : Lambda) {r r' : Resolution}, Moved k j base log r r' →
    Moved k j base log (Resolution.lambda s f r)
      (Resolution.lambda s (f.relabel (Token.down k) (· + j)) r')
  | .mk params body, _, _, h => (stmts s body (parameters params h.openScope)).closeScope

theorem methods (s : Surroundings) : ∀ (decls : List FunctionDecl) {r r' : Resolution},
    Moved k j base log r r' → Moved k j base log (Resolution.methods s decls r)
      (Resolution.methods s (FunctionDecl.relabelAll (Token.down k) (· + j) decls) r')
  | [], _, _, h => h
  | .mk _ function :: rest, _, _, h => methods s rest (lambda _ function h)

theorem staticMethods (s : Surroundings) : ∀ (decls : List FunctionDecl) {r r' : Resolution},
    Moved k j base log r r' → Moved k j base log (Resolution.staticMethods s decls r)
      (Resolution.staticMethods s (FunctionDecl.relabelAll (Token.down k) (· + j) decls) r')
  | [], _, _, h => h
  | .mk _ function :: rest, _, _, h =>
    staticMethods s rest (lambda { s with body := .function } function h)

end

end Resolution.Moved

end Lox
