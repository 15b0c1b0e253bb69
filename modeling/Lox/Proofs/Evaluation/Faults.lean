import Lox.Proofs.Evaluation.Lookup
import Lox.Proofs.Evaluation.Provenance
import Lox.Proofs.Evaluation.Raising

/-!
Which faults a program can have when it runs, and at which of its tokens. The faults that stand for a
construct in which something was reported, or for a `this` or `super` that has none, are not among them.
-/

namespace Lox

open Run

/-- The operators that take two numbers. -/
def numericKinds : List TokenKind :=
  [.minus, .star, .slash, .greater, .greaterEqual, .less, .lessEqual]

/-- The token is one at which the fault can be. -/
def RuntimeFault.At (t : Token) : RuntimeFault → Prop
  | undefinedVariable x | unassignedVariable x | alreadyDefined x | undefinedProperty x =>
    t.kind = .identifier ∧ t.lexeme = x
  | noProperties | noFields | superclassNotClass => t.kind = .identifier
  | operandNotNumber => t.kind = .minus
  | operandsNotNumbers => t.kind ∈ numericKinds
  | operandsNotAddable => t.kind = .plus
  | notCallable | wrongArgumentCount _ _ => t.kind = .rightParen
  | malformed => False

def RuntimeError.Fits (e : RuntimeError) : Prop := e.fault.At e.token

namespace RuntimeFault

variable {t : Token} {fault : RuntimeFault}

theorem At.ne_malformed (h : fault.At t) : fault ≠ .malformed := by
  rintro rfl
  exact h

/-- No fault is at `this` or `super`. -/
theorem At.kind_ne (h : fault.At t) : t.kind ≠ .this ∧ t.kind ≠ .super := by
  have hkind : t.kind ∈ .identifier :: .plus :: .rightParen :: numericKinds := by
    cases fault with
    | undefinedVariable | unassignedVariable | alreadyDefined | undefinedProperty =>
      rw [h.1]
      decide
    | operandsNotNumbers =>
      exact List.mem_cons_of_mem _ (List.mem_cons_of_mem _ (List.mem_cons_of_mem _ h))
    | malformed => exact h.elim
    | _ =>
      rw [show t.kind = _ from h]
      decide
  have hkinds : ∀ kind ∈ .identifier :: .plus :: .rightParen :: numericKinds,
      kind ≠ .this ∧ kind ≠ .super := by
    decide
  exact hkinds _ hkind

end RuntimeFault

/-- The error is one of a name: of a variable or a property. -/
def RuntimeError.Names (t : Token) (e : RuntimeError) : Prop :=
  e.token = t ∧ e.fault ∈ [.undefinedVariable t.lexeme, .unassignedVariable t.lexeme,
    .alreadyDefined t.lexeme, .undefinedProperty t.lexeme, .noProperties, .noFields]

theorem RuntimeError.Names.fits {t : Token} {e : RuntimeError} (h : e.Names t)
    (ht : t.kind = .identifier) : e.Fits := by
  obtain ⟨token, fault⟩ := e
  obtain ⟨rfl, hfault⟩ := h
  simp only [List.mem_cons, List.not_mem_nil, or_false] at hfault
  rcases hfault with rfl | rfl | rfl | rfl | rfl | rfl
  · exact ⟨ht, rfl⟩
  · exact ⟨ht, rfl⟩
  · exact ⟨ht, rfl⟩
  · exact ⟨ht, rfl⟩
  · exact ht
  · exact ht

section

variable {α β : Type} {E E' : RuntimeError → Prop}

/-- The errors of an access are such. -/
def Access.Fails (E : RuntimeError → Prop) (p : Access α) : Prop :=
  ∀ h e h', p h = .error e h' → E e

namespace Access

theorem Fails.mono {p : Access α} (hp : Fails E p) (hE : ∀ e, E e → E' e) : Fails E' p :=
  fun h e h' he => hE e (hp h e h' he)

theorem Fails.of_ok {p : Access α} (hp : ∀ h, ∃ a h', p h = .ok a h') : Fails E p := by
  intro h e h' he
  obtain ⟨a, h'', hok⟩ := hp h
  rw [hok] at he
  cases he

theorem Fails.pure (a : α) : Fails E (pure a) := .of_ok fun h => ⟨a, h, rfl⟩

theorem Fails.bind {p : Access α} {f : α → Access β} (hp : Fails E p) (hf : ∀ a, Fails E (f a)) :
    Fails E (p >>= f) := by
  intro h e h' he
  cases hr : p h with
  | ok a h₁ =>
    rw [bind_of_ok hr] at he
    exact hf a h₁ e h' he
  | error e₁ h₁ =>
    rw [bind_of_error hr] at he
    cases he
    exact hp h _ _ hr

variable (e : Environment) (name : Token) (value : Value)

theorem fail_fails (fault : RuntimeFault) (h : E ⟨name, fault⟩) :
    Fails E (Access.fail name fault : Access α) := by
  intro _ _ _ he
  cases he
  exact h

theorem read_fails (frame : FrameId) : Fails (RuntimeError.Names name) (read frame name) := by
  intro h e h' he
  unfold read at he
  split at he
  · cases he
  · exact fail_fails name _ ⟨rfl, by simp⟩ _ _ _ he
  · exact fail_fails name _ ⟨rfl, by simp⟩ _ _ _ he

theorem overwrite_fails (frame : FrameId) :
    Fails (RuntimeError.Names name) (overwrite frame name value) := by
  intro h e h' he
  unfold overwrite at he
  split at he
  · cases he
  · exact fail_fails name _ ⟨rfl, by simp⟩ _ _ _ he

theorem define_fails (value : Option Value) :
    Fails (RuntimeError.Names name) (define e name value) := by
  intro h e h' he
  unfold define at he
  split at he
  · exact fail_fails name _ ⟨rfl, by simp⟩ _ _ _ he
  · cases he

theorem get_fails : Fails (RuntimeError.Names name) (get e name) := by
  intro h e h' he
  unfold get at he
  split at he
  · exact read_fails name _ _ _ _ he
  · exact fail_fails name _ ⟨rfl, by simp⟩ _ _ _ he

theorem assign_fails : Fails (RuntimeError.Names name) (assign e name value) := by
  intro h e h' he
  unfold assign at he
  split at he
  · exact overwrite_fails name value _ _ _ _ he
  · exact fail_fails name _ ⟨rfl, by simp⟩ _ _ _ he

theorem getAt_fails (distance : Nat) : Fails (RuntimeError.Names name) (getAt e distance name) := by
  unfold getAt
  split
  · exact read_fails name _
  · exact fail_fails name _ ⟨rfl, by simp⟩

theorem assignAt_fails (distance : Nat) :
    Fails (RuntimeError.Names name) (assignAt e distance name value) := by
  unfold assignAt
  split
  · exact overwrite_fails name value _
  · exact fail_fails name _ ⟨rfl, by simp⟩

theorem child_fails : Fails E (child e) := .of_ok fun _ => ⟨_, _, rfl⟩

theorem newClosure_fails (name? : Option String) (function : Lambda) (isInitializer : Bool) :
    Fails E (newClosure name? function e isInitializer) := .of_ok fun _ => ⟨_, _, rfl⟩

theorem defineAll_fails : ∀ bound : List (Token × Value),
    Fails (fun err => ∃ b ∈ bound, err.Names b.1) (defineAll e bound)
  | [] => .pure ()
  | (name, value) :: rest => by
    refine .bind ((define_fails e name (some value)).mono fun err h => ?_) fun _ => ?_
    · exact ⟨_, List.mem_cons_self, h⟩
    · exact (defineAll_fails rest).mono fun err ⟨b, hb, h⟩ => ⟨b, List.mem_cons_of_mem _ hb, h⟩

theorem instanceProperty_fails (object : Instance) :
    Fails (RuntimeError.Names name) (instanceProperty object name) := by
  intro h e h' he
  unfold instanceProperty at he
  split at he
  · cases he
  · split at he
    · cases he
    · exact fail_fails name _ ⟨rfl, by simp⟩ _ _ _ he

theorem classProperty_fails (cls : Class) :
    Fails (RuntimeError.Names name) (classProperty cls name) := by
  intro h e h' he
  unfold classProperty at he
  split at he
  · cases he
  · exact fail_fails name _ ⟨rfl, by simp⟩ _ _ _ he

theorem methodTable_fails : ∀ (decls : List FunctionDecl) (table : Std.TreeMap String Closure),
    Fails E (methodTable e decls table)
  | [], table => .pure table
  | .mk _ _ :: rest, _ => (newClosure_fails _ _ _ _).bind fun _ => methodTable_fails rest _

theorem staticTable_fails : ∀ (decls : List FunctionDecl) (table : Properties),
    Fails E (staticTable e decls table)
  | [], table => .pure table
  | .mk _ _ :: rest, _ => (newClosure_fails _ _ _ _).bind fun _ => staticTable_fails rest _

theorem defineClass_fails (superclass : Option Class) (own statics : List FunctionDecl) :
    Fails (RuntimeError.Names name) (defineClass name superclass own statics e) := by
  have hinner : Fails (RuntimeError.Names name) (methodEnvironment e superclass) := by
    cases superclass with
    | none => exact .pure e
    | some cls =>
      have hbind (inner : Environment) :
          Fails (RuntimeError.Names name) (bind inner "super" (.class cls)) := .of_ok fun _ => ⟨_, _, rfl⟩
      exact (child_fails e).bind fun inner => (hbind inner).bind fun _ => .pure inner
  refine (define_fails e name none).bind fun _ => hinner.bind fun inner => ?_
  refine (methodTable_fails inner own ∅).bind fun methods => ?_
  refine (staticTable_fails inner statics ∅).bind fun table => ?_
  have hobject : Fails (RuntimeError.Names name) (newObject table) := .of_ok fun _ => ⟨_, _, rfl⟩
  exact hobject.bind fun id => assign_fails e name _

theorem callEnvironment_fails (closure : Closure) (arguments : List Value) :
    Fails (fun err => ∃ p ∈ closure.function.params, err.Names p)
      (callEnvironment closure arguments) := by
  refine (child_fails closure.environment).bind fun inner => .bind ?_ fun _ => .pure inner
  refine (defineAll_fails inner _).mono fun err ⟨b, hb, h⟩ => ⟨b.1, ?_, h⟩
  exact (List.of_mem_zip hb).1

end Access

/-- The errors of an action are such. -/
def Run.Fails (E : RuntimeError → Prop) (p : Run α) : Prop := ∀ m e, errorOf (p m) = some e → E e

namespace Run

theorem Fails.pure (a : α) : Fails E (pure a : Run α) := fun _ _ he => nomatch he

theorem Fails.bind {p : Run α} {f : α → Run β} (hp : Fails E p) (hf : ∀ a, Fails E (f a)) :
    Fails E (p >>= f) := by
  intro m e he
  rcases errorOf_bind he with he | ⟨a, m', _, he⟩
  · exact hp m e he
  · exact hf a m' e he

theorem Fails.fail {t : Token} {fault : RuntimeFault} (h : E ⟨t, fault⟩) :
    Fails E (fail t fault : Run α) := by
  intro m e he
  cases he
  exact h

theorem Fails.access {p : Access α} (hp : Access.Fails E p) : Fails E (access p) := by
  intro m e he
  unfold Run.access at he
  cases hr : p m.heap with
  | ok a heap =>
    simp only [hr] at he
    cases he
  | error e' heap =>
    simp only [hr] at he
    cases he
    exact hp m.heap _ _ hr

theorem environment_fails : Fails E environment := fun _ _ he => nomatch he

theorem hops?_fails (id : NodeId) : Fails E (hops? id) := fun _ _ he => nomatch he

theorem lookUp_fails (ref : Reference) : Fails (RuntimeError.Names ref.name) (lookUp ref) := by
  refine (hops?_fails ref.id).bind fun distance => ?_
  cases distance with
  | none => exact .access (Access.get_fails _ ref.name)
  | some distance =>
    exact environment_fails.bind fun e => .access (Access.getAt_fails e ref.name distance)

theorem assign_fails (target : Reference) (value : Value) :
    Fails (RuntimeError.Names target.name) (assign target value) := by
  refine (hops?_fails target.id).bind fun distance => ?_
  cases distance with
  | none => exact .access (Access.assign_fails _ target.name value)
  | some distance =>
    exact environment_fails.bind fun e => .access (Access.assignAt_fails e target.name value distance)

theorem define_fails (name : Token) (value : Option Value) :
    Fails (RuntimeError.Names name) (define name value) :=
  environment_fails.bind fun e => .access (Access.define_fails e name value)

theorem property_fails (object : Value) (name : Token) :
    Fails (RuntimeError.Names name) (property object name) := by
  cases object with
  | «instance» object => exact .access (Access.instanceProperty_fails name object)
  | «class» cls => exact .access (Access.classProperty_fails name cls)
  | _ => exact .fail ⟨rfl, by simp⟩

theorem propertyTable_fails (object : Value) (name : Token) :
    Fails (RuntimeError.Names name) (propertyTable object name) := by
  cases object with
  | «instance» object => exact .pure _
  | «class» cls => exact .pure _
  | _ => exact .fail ⟨rfl, by simp⟩

/-- The error fits, and it is at the token. -/
def FitsAt (t : Token) (e : RuntimeError) : Prop := e.token = t ∧ e.Fits

theorem unary_fails {operator : Token} (h : operator.kind = .bang ∨ operator.kind = .minus)
    (v : Value) : Fails (FitsAt operator) (unary operator v) := by
  unfold unary
  rcases h with h | h
  · rw [h]
    exact .pure _
  · rw [h]
    cases v with
    | number x => exact .pure _
    | _ => exact .fail ⟨rfl, h⟩

/-- With such an operator two numbers give a result. -/
theorem numeric_fails {operator : Token} (h : operator.kind ∈ numericKinds) (a b : Float) :
    Fails E (numeric operator a b) := by
  obtain ⟨kind, lexeme, literal, line⟩ := operator
  simp only [numericKinds, List.mem_cons, List.not_mem_nil, or_false] at h
  rcases h with rfl | rfl | rfl | rfl | rfl | rfl | rfl <;> exact .pure _

theorem add_fails {operator : Token} (h : operator.kind = .plus) (left right : Value) :
    Fails (FitsAt operator) (add operator left right) := by
  unfold add
  split
  · exact .pure _
  · exact .pure _
  · exact .fail ⟨rfl, h⟩

theorem operators_classes : ∀ kind ∈ Piece.operators, kind ∈ [.comma, .or, .and] ∨
    kind ∈ [.equalEqual, .bangEqual] ∨ kind = .plus ∨ kind ∈ numericKinds := by
  decide

theorem binary_fails {operator : Token} (h : operator.kind ∈ Piece.operators) {left : Value}
    (hcombine : afterLeft operator.kind left = .combine) (right : Value) :
    Fails (FitsAt operator) (binary operator left right) := by
  have hclass := operators_classes _ h
  clear h
  obtain ⟨kind, lexeme, literal, line⟩ := operator
  rcases hclass with h | h | h | h
  · -- After these operators the right operand is not combined with the left one.
    have hafter : afterLeft kind left ≠ .combine := by
      simp only [List.mem_cons, List.not_mem_nil, or_false] at h
      unfold afterLeft
      rcases h with rfl | rfl | rfl <;> cases left.isTruthy <;> simp
    exact absurd hcombine hafter
  · simp only [List.mem_cons, List.not_mem_nil, or_false] at h
    rcases h with rfl | rfl <;> exact .pure _
  · cases h
    exact add_fails rfl left right
  · unfold binary
    split
    · next hplus => exact absurd (show TokenKind.plus ∈ numericKinds from hplus ▸ h) (by decide)
    · exact .pure _
    · exact .pure _
    · split
      · exact numeric_fails h _ _
      · exact .fail ⟨rfl, h⟩

theorem checkArity_fails (paren : Token) (expected given : Nat) :
    Fails (fun e => e.token = paren ∧ e.fault = .wrongArgumentCount expected given)
      (checkArity paren expected given) := by
  unfold checkArity
  split
  · exact .pure _
  · exact .fail ⟨rfl, rfl⟩

end Run

end

theorem Piece.Formed.has {T : Token → Prop} {p : Piece} {t : Token} (h : p.Formed T)
    (ht : .token t ∈ p.parts) : T t := (h.parts _ ht).meaningful

section Points

variable {W : World} {begun : Begun} {P : Point} {e : RuntimeError} {T : Token → Prop}

/-- An initializer finds its receiver, and other calls have their result. -/
theorem Closure.Sound.callResult {w : View} {closure : Closure} {m : Machine} (h : closure.Sound w)
    (hheap : w.heap = m.heap) (c : Completion) :
    errorOf (Run.callResult closure c m) = none := by
  unfold Run.callResult
  by_cases hinit : closure.isInitializer = true
  · rw [if_pos hinit]
    cases h with
    | plain _ _ _ ordinary => exact absurd hinit (by simp [ordinary])
    | @bound method _ m₀ _ _ _ _ _ made _ _ _ this _ _ _ =>
      have hancestor : closure.environment.ancestor? 0 = some closure.environment := rfl
      have hinner : closure.environment.inner = m₀.heap.frames.size :=
        congrArg Environment.inner (bindMethod_closure made).1
      rw [hheap, ← hinner] at this
      rw [getAt_eq hancestor this]
      rfl
  · rw [if_neg hinit]
    cases c <;> rfl

/-- A function that was called is sound when its body has ended. -/
theorem Point.Sound.afterBody {n : Nat} {closure : Closure} {arguments : List Value}
    {m m' m'' : Machine} {inner : Environment} {c : Completion}
    (h : (Point.invoke (n + 1) closure arguments m).Sound W begun)
    (hi : access (callEnvironment closure arguments) m = .ok inner m')
    (hb : Run.within inner (execAll n closure.function.body) m' = .ok c m'') :
    closure.Sound (W.view begun m''.heap) := by
  have hbody := h.step (fun k _ => preserves W k) (.body hi)
  obtain ⟨hclosure, harguments, harity⟩ := h.ready
  have henter : Ends W begun m _ (access (callEnvironment closure arguments) m) :=
    .access h.machine.hops
      (Access.callEnvironment_ends h.visited h.machine.heap hclosure harguments harity)
  have hkeeps := (henter.of_ok hi).1
  have hkeeps' := ((Ends.within ((preserves W n).execAll hbody)).of_ok hb).1
  exact hclosure.mono (hkeeps.trans hkeeps').heap.le_same

theorem Point.Sound.result {n : Nat} {closure : Closure} {arguments : List Value}
    {m m' m'' : Machine} {inner : Environment} {c : Completion}
    (h : (Point.invoke (n + 1) closure arguments m).Sound W begun)
    (hi : access (callEnvironment closure arguments) m = .ok inner m')
    (hb : Run.within inner (execAll n closure.function.body) m' = .ok c m'') :
    errorOf (callResult closure c m'') = none :=
  (h.afterBody hi hb).callResult rfl c

/-- What a sound point raises where the code is formed is at a token of the code at which it can be. -/
theorem Raises.fits (h : Raises P e) (hsound : P.Sound W begun) (hP : P.From (Piece.Formed T)) :
    e.Fits ∧ T e.token := by
  have hnames {t : Token} {e : RuntimeError} (h : e.Names t) (hkind : t.kind = .identifier)
      (ht : T t) : e.Fits ∧ T e.token := ⟨h.fits hkind, h.1 ▸ ht⟩
  cases h with
  | lookup h =>
    rename_i ref m
    generalize he : some e = error? at h
    cases h with
    | «variable» =>
      exact hnames (lookUp_fails ref _ _ he.symm) hP.meaningful (hP.has (by simp [Piece.parts]))
    | assign _ =>
      exact hnames (assign_fails ref _ _ _ he.symm) hP.meaningful (hP.has (by simp [Piece.parts]))
    | this =>
      obtain ⟨_, _, _, _, receiver, _, _, _, heval⟩ := hsound.this
      have hlookup : lookUp ref m = .ok (.instance receiver) m := heval
      rw [hlookup] at he
      cases he
    | super =>
      rename_i n method
      obtain ⟨_, _, _, _, _, _, receiver, cls, _, _, _, _, _, heval⟩ := hsound.super
      have hmethod : superMethod ref method m = _ := heval
      rw [hmethod] at he
      cases hfound : cls.method? method.lexeme with
      | some found =>
        rw [hfound] at he
        cases he
      | none =>
        rw [hfound] at he
        cases he
        exact ⟨⟨hP.meaningful.2, rfl⟩, hP.has (by simp [Piece.parts])⟩
    | superclass =>
      exact hnames (lookUp_fails ref _ _ he.symm) (hP.meaningful.2 ref rfl)
        (hP.has (by simp [Piece.parts, Piece.ofReference?]))
  | operand hv h =>
    obtain ⟨htoken, hfits⟩ := unary_fails hP.meaningful _ _ _ h
    exact ⟨hfits, htoken ▸ hP.has (by simp [Piece.parts])⟩
  | operands ha hcombine hb h =>
    obtain ⟨htoken, hfits⟩ := binary_fails hP.meaningful hcombine _ _ _ h
    exact ⟨hfits, htoken ▸ hP.has (by simp [Piece.parts])⟩
  | binaryError => exact hP.meaningful.elim
  | get ho h =>
    exact hnames (property_fails _ _ _ _ h) hP.meaningful (hP.has (by simp [Piece.parts]))
  | set ho h =>
    exact hnames (propertyTable_fails _ _ _ _ h) hP.meaningful (hP.has (by simp [Piece.parts]))
  | arity h =>
    obtain ⟨_, ⟨_, _, hcall⟩, _⟩ := hP
    obtain ⟨htoken, hfault⟩ := checkArity_fails _ _ _ _ _ h
    refine ⟨?_, htoken ▸ hcall.has (by simp [Piece.parts])⟩
    unfold RuntimeError.Fits
    rw [hfault, htoken]
    exact hcall.meaningful
  | notCallable =>
    obtain ⟨_, ⟨_, _, hcall⟩, _⟩ := hP
    exact ⟨hcall.meaningful, hcall.has (by simp [Piece.parts])⟩
  | parameters h =>
    have hfunction := hP.1.function.2
    obtain ⟨p, hp, h⟩ := Fails.access (Access.callEnvironment_fails _ _) _ _ h
    exact hnames h (hfunction.meaningful p hp) (hfunction.has (by simp [Piece.parts, hp]))
  | result hi hb h =>
    rw [hsound.result hi hb] at h
    cases h
  | unassigned h =>
    exact hnames (define_fails _ _ _ _ h) hP.meaningful (hP.has (by simp [Piece.parts]))
  | var _ h =>
    exact hnames (define_fails _ _ _ _ h) hP.meaningful (hP.has (by simp [Piece.parts]))
  | function h =>
    refine hnames (define_fails _ _ _ _ h) hP.meaningful (hP.has ?_)
    simp [Piece.parts, Piece.ofDeclarations, FunctionDecl.name]
  | breakError | continueError => exact hP.meaningful.elim
  | superclass =>
    exact ⟨hP.meaningful.2 _ rfl, hP.has (by simp [Piece.parts, Piece.ofReference?])⟩
  | «class» h =>
    have hfails := Fails.access (Access.defineClass_fails _ _ _ _ _) _ _ h
    exact hnames hfails hP.meaningful.1 (hP.has (by simp [Piece.parts]))

end Points

end Lox
