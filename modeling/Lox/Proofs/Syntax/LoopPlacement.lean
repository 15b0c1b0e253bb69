import Mathlib.Data.List.Perm.Subperm
import Lox.Proofs.Syntax.LoopCount
import Lox.Proofs.Syntax.Keeping
import Lox.Proofs.Syntax.Marks

/-!
Where jumps stand in what the parser makes of any text, whatever is wrong with it. A `break` or
`continue` is inside a loop, one that is outside of every loop is another node, and every node that
stands for a fault has been reported on its own.
-/

namespace Lox

namespace Mark

/-- A jump is inside a loop, and the nodes for misplaced jumps are not. -/
def Placed (m : Mark) : Prop :=
  match m.kind with
  | .break | .continue => insideLoop m.around = true
  | .breakError | .continueError => insideLoop m.around = false
  | .binaryError | .return _ | .this _ | .super _ => True

/-- The keywords for the receiver and the superclass are words of the text. -/
def Written (T : Token → Prop) (m : Mark) : Prop :=
  match m.kind with
  | .this _ => m.token.kind = .this ∧ T m.token
  | .super _ => m.token.kind = .super ∧ T m.token
  | _ => True

/-- The diagnostic of a node that stands for a fault. -/
def fault? (m : Mark) : Option Diagnostic :=
  match m.kind with
  | .breakError => some (.atToken m.token (.syntactic .misplacedBreak))
  | .continueError => some (.atToken m.token (.syntactic .misplacedContinue))
  | .binaryError => some (.atToken m.token (.syntactic .noLeftOperand))
  | .break | .continue | .return _ | .this _ | .super _ => none

end Mark

/-- The marks of something that has been read, by what is around it. -/
abbrev Marks := Enclosures → List Mark

namespace Marks

def none : Marks := fun _ => []

/-- The marks of what stands in a loop, or of what does not, at such places. -/
def inside (inLoop : Bool) (marks : Marks) : Marks := fun around =>
  if insideLoop around = inLoop then marks around else []

variable {inLoop : Bool} {marks : Marks} {around : Enclosures}

theorem inside_of (h : insideLoop around = inLoop) : inside inLoop marks around = marks around :=
  if_pos h

theorem inside_cases (inLoop : Bool) (marks : Marks) (around : Enclosures) :
    inside inLoop marks around = [] ∨
      inside inLoop marks around = marks around ∧ insideLoop around = inLoop := by
  unfold inside
  split
  next hin => exact .inr ⟨rfl, hin⟩
  next => exact .inl rfl

theorem inside_append (marks marks' : Marks) :
    inside inLoop (fun around => marks around ++ marks' around) =
      fun around => inside inLoop marks around ++ inside inLoop marks' around := by
  funext around
  unfold inside
  split <;> rfl

end Marks

open List in
/-- Up to a place in the text, behind some diagnostics, this has been read. Its marks fit the places
that they are for, and each fault has a diagnostic that is not one of those from before. -/
structure Noted (T : Token → Prop) (before : List Diagnostic) (c : Cursor) (marks : Marks) : Prop where
  words : ∀ t ∈ c.rest, T t
  fits : ∀ around, ∀ m ∈ marks around, m.Placed ∧ m.Written T
  faults : ∀ around d,
    before.count d + ((marks around).filterMap Mark.fault?).count d ≤ c.log.count d

namespace Noted

variable {T : Token → Prop} {before : List Diagnostic} {c d : Cursor} {marks marks' : Marks}

/-- Some of the marks, at the place or inside of a body there. -/
theorem subset (h : Noted T before c marks) {f : Enclosures → Enclosures}
    (hmarks : ∀ around, List.Subperm (marks' around) (marks (f around))) : Noted T before c marks' := by
  refine ⟨h.words, fun around m hm => h.fits (f around) m ((hmarks around).subset hm), ?_⟩
  intro around x
  obtain ⟨l, hperm, hsub⟩ := hmarks around
  have hle : ((marks' around).filterMap Mark.fault?).count x ≤
      ((marks (f around)).filterMap Mark.fault?).count x := by
    rw [← (hperm.filterMap Mark.fault?).count_eq]
    exact (hsub.filterMap Mark.fault?).count_le x
  exact Nat.le_trans (Nat.add_le_add_left hle _) (h.faults (f around) x)

/-- Nothing has been read yet. -/
theorem start (hwords : ∀ t ∈ c.rest, T t) : Noted T c.log c .none :=
  ⟨hwords, fun _ _ hm => (nomatch hm), fun _ _ => Nat.le_refl _⟩

theorem append (h : Noted T before c marks) (h' : Noted T c.log d marks') :
    Noted T before d fun around => marks around ++ marks' around := by
  refine ⟨h'.words, fun around m hm => ?_, fun around x => ?_⟩
  · rcases List.mem_append.1 hm with hm | hm
    · exact h.fits around m hm
    · exact h'.fits around m hm
  · have hfirst := h.faults around x
    have hsecond := h'.faults around x
    rw [List.filterMap_append, List.count_append]
    omega

/-- A mark that fits is put in front, with its diagnostic if it stands for a fault. -/
theorem cons (h : Noted T before c marks) {log : List Diagnostic} (kind : MarkKind) (t : Token)
    (hlog : ∀ around, log = (Mark.mk kind t around).fault?.toList ++ c.log)
    (hmarks : ∀ around, marks' around = [] ∨ marks' around = ⟨kind, t, around⟩ :: marks around ∧
      (Mark.mk kind t around).Placed ∧ (Mark.mk kind t around).Written T) :
    Noted T before { c with log } marks' := by
  refine ⟨h.words, fun around m hm => ?_, fun around x => ?_⟩
  · rcases hmarks around with hnone | ⟨hsome, hfits⟩
    · rw [hnone] at hm
      cases hm
    · rw [hsome] at hm
      rcases List.mem_cons.1 hm with rfl | hm
      · exact hfits
      · exact h.fits around m hm
  · have hbefore := h.faults around x
    show before.count x + _ ≤ log.count x
    rw [hlog around, List.count_append]
    rcases hmarks around with hnone | ⟨hsome, _⟩
    · rw [hnone, List.filterMap_nil, List.count_nil]
      omega
    · have hcount : ((marks' around).filterMap Mark.fault?).count x =
          (Mark.mk kind t around).fault?.toList.count x +
            ((marks around).filterMap Mark.fault?).count x := by
        rw [hsome, List.filterMap_cons, ← List.count_append]
        cases (Mark.mk kind t around).fault? <;> rfl
      omega

end Noted

namespace Marks

open Account

variable {T : Token → Prop}

/-- The marks that have been made since some diagnostics. -/
def account (T : Token → Prop) : Account T where
  Origin := List Diagnostic
  Entry := Marks
  empty := none
  beside marks marks' := fun around => marks around ++ marks' around
  origin c := c.log
  Holds := Noted T
  empty_beside _ := rfl
  beside_empty marks := funext fun around => List.append_nil (marks around)
  beside_assoc _ _ _ := funext fun _ => List.append_assoc ..
  words h := h.words
  left h := h.subset fun _ => (List.sublist_append_left _ _).subperm
  start h := .start h.words
  append := Noted.append
  pass dropped _ hr h :=
    ⟨fun t ht => h.words t (hr ▸ List.mem_append_right dropped ht), h.fits, h.faults⟩
  report _ _ h := ⟨h.words, h.fits, fun around d =>
    Nat.le_trans (h.faults around d) List.count_le_count_cons⟩
  number h := ⟨h.words, h.fits, h.faults⟩

/-- Whatever is around a function, its body begins outside of every loop. -/
def entries (T : Token → Prop) : (account T).Entries where
  expr := Expr.marks
  stmt inLoop s := inside inLoop s.marks
  declaration inLoop s := inside inLoop s.marks
  loopBody s := fun around => s.marks (.loop :: around)
  function f := inside false f.marks
  method isStatic inherits decl := fun around =>
    decl.function.marks (.method decl.name isStatic inherits :: around)
  superclass _ := none
  name _ := none
  parameter _ := none
  program p := fun _ => p.marks

theorem turns_of {marks marks' : Marks}
    (h : ∀ around, List.Subperm (marks' around) (marks around)) : (account T).Turns marks marks' :=
  fun _ _ hc => hc.subset (f := id) h

/-- A body around what has been read. -/
theorem turns_within {marks marks' : Marks} (f : Enclosures → Enclosures)
    (h : ∀ around, marks' around = marks (f around)) : (account T).Turns marks marks' :=
  fun _ _ hc => hc.subset fun around => (List.Perm.of_eq (h around)).subperm

theorem turns_inside {inLoop : Bool} {marks marks' : Marks}
    (h : ∀ around, insideLoop around = inLoop → List.Subperm (marks' around) (marks around)) :
    (account T).Turns marks (inside inLoop marks') := by
  refine turns_of fun around => ?_
  unfold inside
  split
  next hin => exact h around hin
  next => exact List.nil_subperm

open Classical in
theorem subperm_of_count {ms ms' : List Mark} (h : ∀ m, ms.count m ≤ ms'.count m) :
    List.Subperm ms ms' := List.subperm_ext_iff.2 fun m _ => h m

theorem beside_eq (marks marks' : Marks) :
    (account T).beside marks marks' = fun around => marks around ++ marks' around := rfl

theorem all_exprs (es : List Expr) : (account T).all Expr.marks es = Expr.marksAll es := by
  induction es with
  | nil => rfl
  | cons e rest ih =>
    funext around
    exact congrArg (e.marks around ++ ·) (congrFun ih around)

theorem all_stmts (inLoop : Bool) (body : List Stmt) :
    (account T).all (fun s => inside inLoop s.marks) body = inside inLoop (Stmt.marksAll body) := by
  induction body with
  | nil =>
    funext around
    exact (ite_self []).symm
  | cons s rest ih =>
    refine Eq.trans ?_ (inside_append s.marks (Stmt.marksAll rest)).symm
    funext around
    exact congrArg (inside inLoop s.marks around ++ ·) (congrFun ih around)

theorem all_methods (isStatic inherits : Bool) (decls : List FunctionDecl) :
    (account T).all ((entries T).method isStatic inherits) decls =
      FunctionDecl.marksAll isStatic inherits decls := by
  induction decls with
  | nil => rfl
  | cons decl rest ih =>
    obtain ⟨name, f⟩ := decl
    funext around
    exact congrArg (f.marks (.method name isStatic inherits :: around) ++ ·) (congrFun ih around)

theorem all_parameters (params : List Token) : (account T).all (fun _ => none) params = none := by
  induction params with
  | nil => rfl
  | cons t rest ih => exact ih

theorem optional_expr (e? : Option Expr) : (account T).optional Expr.marks e? = Expr.marks? e? := by
  cases e? <;> rfl

theorem optional_stmt {inLoop : Bool} (s? : Option Stmt) :
    (account T).optional (fun s => inside inLoop s.marks) s? = inside inLoop (Stmt.marks? s?) := by
  cases s? with
  | none =>
    funext around
    exact (ite_self []).symm
  | some s => rfl

/-- A node that stands for no fault. -/
theorem turns_cons (kind : MarkKind) (t : Token) {marks marks' : Marks}
    (hfault : ∀ around, (Mark.mk kind t around).fault? = .none)
    (hmarks : ∀ around, marks' around = [] ∨ marks' around = ⟨kind, t, around⟩ :: marks around ∧
      (Mark.mk kind t around).Placed ∧ (Mark.mk kind t around).Written T) :
    (account T).Turns marks marks' := fun _ _ hc =>
  hc.cons kind t (fun around => by rw [hfault around]; rfl) hmarks

theorem composes : (entries T).Composes where
  name _ := takes_empty _
  parameter _ := takes_empty _
  nil := .refl _
  boolean _ := .refl _
  literal _ _ := .refl _
  grouping _ := .refl _
  unary _ _ := .refl _
  binary _ _ _ _ := .refl _
  binaryError _ _ := fun _ _ hc => hc.cons .binaryError _ (fun _ => rfl) fun _ =>
    .inr ⟨rfl, trivial, trivial⟩
  conditional _ _ _ := turns_of fun around => by
    simp only [entries, beside_eq, Expr.marks, List.append_assoc]
    exact .refl _
  «variable» _ := .of_turns fun _ => .refl _
  assign ref value := .of_turns fun _ => .refl _
  call _ _ _ _ := turns_of fun around => by
    simp only [entries, beside_eq, all_exprs, Expr.marks]
    exact .refl _
  get _ _ _ := .refl _
  set _ _ _ := turns_of fun _ => List.perm_append_comm.subperm
  this ht := .of_turns fun id => turns_cons (.this id) _ (fun _ => rfl) fun _ =>
    .inr ⟨rfl, trivial, List.mem_singleton.1 ht.kind, ht.word⟩
  super ht _ := .of_turns fun id => turns_cons (.super id) _ (fun _ => rfl) fun _ =>
    .inr ⟨rfl, trivial, List.mem_singleton.1 ht.kind, ht.word⟩
  lambda _ := turns_within (.function :: ·) fun _ => rfl
  expression _ _ := turns_inside fun _ _ => .refl _
  print _ _ := turns_inside fun _ _ => .refl _
  block inLoop body := by
    have hall := all_stmts (T := T) inLoop body
    show (account T).Turns ((account T).all (fun s => inside inLoop s.marks) body) _
    rw [hall]
    exact .refl _
  ite _ _ _ _ := turns_inside fun around hin => by
    simp only [entries, beside_eq, optional_stmt, inside_of hin, Stmt.marks, List.append_assoc]
    exact .refl _
  loopBody _ := turns_within (.loop :: ·) fun _ => rfl
  loop _ _ _ _ := turns_inside fun around hin => subperm_of_count fun m => by
    simp only [entries, beside_eq, optional_expr, Stmt.marks, List.count_append]
    omega
  initialized _ _ _ _ _ := turns_inside fun around hin => subperm_of_count fun m => by
    simp only [entries, beside_eq, optional_expr, inside_of hin, Stmt.marks, Stmt.marksAll,
      List.count_append, List.count_nil]
    omega
  «break» keyword := turns_cons .break keyword (fun _ => rfl) fun around =>
    (inside_cases true _ around).imp_right fun h => ⟨h.1, h.2, trivial⟩
  «continue» keyword := turns_cons .continue keyword (fun _ => rfl) fun around =>
    (inside_cases true _ around).imp_right fun h => ⟨h.1, h.2, trivial⟩
  breakError keyword := fun _ _ hc => hc.cons .breakError keyword (fun _ => rfl) fun around =>
    (inside_cases false _ around).imp_right fun h => ⟨h.1, h.2, trivial⟩
  continueError keyword := fun _ _ hc => hc.cons .continueError keyword (fun _ => rfl) fun around =>
    (inside_cases false _ around).imp_right fun h => ⟨h.1, h.2, trivial⟩
  «return» inLoop keyword value := turns_cons (.return value.isSome) keyword (fun _ => rfl) fun around =>
    (inside_cases inLoop _ around).imp_right fun h => by
      have hvalue := congrFun (optional_expr (T := T) value) around
      exact ⟨h.1.trans (congrArg _ hvalue.symm), trivial, trivial⟩
  statement _ _ := .refl _
  var _ _ _ := turns_inside fun around hin => by
    simp only [entries, beside_eq, optional_expr, Stmt.marks, none, List.nil_append]
    exact .refl _
  named _ _ _ := (turns_within (.function :: ·) fun _ => rfl).trans (turns_inside fun _ _ => .refl _)
  superclass _ := .of_turns fun _ => .refl _
  method _ _ _ _ := turns_within (.method _ _ _ :: ·) fun _ => rfl
  statics _ _ _ _ := turns_of fun around => (List.perm_append_comm_assoc _ _ _).subperm
  «class» _ _ superclass _ _ := turns_inside fun around hin => by
    have hsuperclass : (account T).optional (fun _ => none) superclass = none := by
      cases superclass <;> rfl
    rw [all_methods, all_methods]
    show List.Subperm _ (_ ++ (account T).optional (fun _ => none) superclass around ++ _)
    rw [hsuperclass]
    exact .refl _
  body params body := by
    show (account T).Turns ((account T).beside ((account T).all (fun _ => none) params)
      ((account T).all (fun s => inside false s.marks) body)) _
    rw [all_parameters, all_stmts]
    exact .refl _
  statements body := by
    show (account T).Turns ((account T).all (fun s => inside false s.marks) body) _
    rw [all_stmts]
    exact turns_within (fun _ => []) fun _ => rfl
  single _ := turns_within (fun _ => []) fun _ => rfl

end Marks

/-- What is read of a text fits the top level. Its keywords are words of the text, and its faults are
among the diagnostics, each as often as it is in the tree. -/
theorem parse_noted {T : Token → Prop} {tokens : List Token} (hT : ∀ t ∈ tokens, T t)
    (allowExpression : Bool) (nextId : NodeId) :
    let read := parse tokens allowExpression nextId
    (∀ m ∈ read.program.marks, m.Placed ∧ m.Written T) ∧
      List.Subperm (read.program.marks.filterMap Mark.fault?) read.diagnostics := by
  intro read
  let c := Cursor.ofTokens tokens nextId
  have hstart : Noted T c.log c .none := .start fun t ht => hT t (rest_ofTokens_subset tokens nextId ht)
  obtain ⟨d, hread, hnoted⟩ := Account.parse_keeps Marks.composes tokens allowExpression nextId hstart
  have hdiagnostics : read.diagnostics = d.log.reverse := congrArg Parse.diagnostics hread
  rw [hdiagnostics]
  refine ⟨hnoted.fits [], ?_⟩
  apply List.Subperm.trans _ (List.reverse_perm d.log).symm.subperm
  apply List.subperm_ext_iff.2
  intro x _
  exact Nat.le_trans (Nat.le_add_left _ _) (hnoted.faults [] x)

/-- Whatever is wrong with a text, a jump in its tree is in the body of a loop with no function between,
a jump that is not has another node, and each node for a fault has a diagnostic of its own. It is no
matter that a reader has nothing but a count of open loops to tell this by. Every reader that has only
the count leaves it as it was found, with a result and with a fault, and those of the grammar come to
what they come to when they are told whether a loop is around. -/
theorem jump_placement (tokens : List Token) (allowExpression : Bool) (nextId : NodeId) :
    let read := parse tokens allowExpression nextId
    (∀ m ∈ read.program.marks,
      (m.kind = .break ∨ m.kind = .continue → insideLoop m.around = true) ∧
        (m.kind = .breakError ∨ m.kind = .continueError → insideLoop m.around = false)) ∧
      List.Subperm (read.program.marks.filterMap Mark.fault?) read.diagnostics ∧
      (∀ (α : Type) (script : LoopScript α) c loops,
        script.count ⟨c, loops⟩ = Counting.plain (script.read (0 < loops)) ⟨c, loops⟩) ∧
      (∀ n c, (Counted.program n allowExpression).count ⟨c, 0⟩ =
        Counting.plain (Reader.program n allowExpression) ⟨c, 0⟩) ∧
      ∀ n c loops,
        (countedGrammar n).expression.script.count ⟨c, loops⟩ =
          Counting.plain (Reader.expression n) ⟨c, loops⟩ ∧
        (countedGrammar n).conditional.script.count ⟨c, loops⟩ =
          Counting.plain (Reader.conditional n) ⟨c, loops⟩ ∧
        (countedGrammar n).unary.script.count ⟨c, loops⟩ =
          Counting.plain (Reader.unary n) ⟨c, loops⟩ ∧
        (∀ closers, ((countedGrammar n).declarations closers).script.count ⟨c, loops⟩ =
          Counting.plain (Reader.declarations n (0 < loops) closers) ⟨c, loops⟩) ∧
        (countedGrammar n).declaration.script.count ⟨c, loops⟩ =
          Counting.plain (Reader.declaration n (0 < loops)) ⟨c, loops⟩ ∧
        (countedGrammar n).statement.script.count ⟨c, loops⟩ =
          Counting.plain (Reader.statement n (0 < loops)) ⟨c, loops⟩ := by
  intro read
  have hread := parse_noted (T := fun _ => True) (fun _ (_ : _ ∈ tokens) => trivial) allowExpression nextId
  refine ⟨fun m hm => ?_, hread.2, fun _ script => script.count_eq, fun n c => ?_, fun n c loops => ?_⟩
  · have hplaced := (hread.1 m hm).1
    unfold Mark.Placed at hplaced
    constructor
    · rintro (hkind | hkind) <;> rwa [hkind] at hplaced
    · rintro (hkind | hkind) <;> rwa [hkind] at hplaced
  · rw [LoopScript.count_eq]
    exact congrArg (fun p => Counting.plain p ⟨c, 0⟩) (Counted.read_program n allowExpression)
  · exact ⟨Counted.count_eq _ c loops, Counted.count_eq _ c loops, Counted.count_eq _ c loops,
      fun closers => Counted.count_eq _ c loops, Counted.count_eq _ c loops, Counted.count_eq _ c loops⟩

end Lox
