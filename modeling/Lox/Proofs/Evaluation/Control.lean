import Lox.Proofs.Evaluation.Placement
import Lox.Proofs.Evaluation.Restoring
import Lox.Proofs.Evaluation.SessionLikeness
import Lox.Proofs.Scope.Returning

/-!
Where `break` and `continue` end. On a machine that has only run what the parser makes of tokens, each
of them goes to the innermost loop around it in its function, and none leaves a function or the top
level.
-/

namespace Lox

open Run

/-- A statement runs another one as its part, or a list of statements one of its own. Between the two is
neither a loop nor a call. -/
inductive Encloses : Point → Point → Prop where
  | block {n body m inner m'} (hi : access (.child m.environment) m = .ok inner m') :
    Encloses (.stmt (n + 1) (.block body) m) (.stmts n body { m' with environment := inner })
  | thenBranch {n condition thenBranch elseBranch m v m'} (hc : eval n condition m = .ok v m')
    (hv : v.isTruthy = true) :
    Encloses (.stmt (n + 1) (.ite condition thenBranch elseBranch) m) (.stmt n thenBranch m')
  | elseBranch {n condition thenBranch elseBranch m v m'} (hc : eval n condition m = .ok v m')
    (hv : v.isTruthy = false) :
    Encloses (.stmt (n + 1) (.ite condition thenBranch (some elseBranch)) m) (.stmt n elseBranch m')
  | firstStmt {n s rest m} : Encloses (.stmts (n + 1) (s :: rest) m) (.stmt n s m)
  | restStmts {n s rest m m'} (hs : exec n s m = .ok .normal m') :
    Encloses (.stmts (n + 1) (s :: rest) m) (.stmts n rest m')

/-- A turn of a loop runs the body. -/
inductive Turn : Point → Point → Prop where
  | body {n condition body increment m v m'} (hc : eval n condition m = .ok v m')
    (hv : v.isTruthy = true) :
    Turn (.loop (n + 1) condition body increment m) (.stmt n body m')

/-- The point lies in a turn of the loop, but in no other loop and in no call within the turn. -/
def InnermostLoop (loop P : Point) : Prop :=
  ∃ body, Turn loop body ∧ Relation.ReflTransGen Encloses body P

/-- How a statement, a list of statements or a loop completes. -/
def Point.EndsWith : Point → Completion → Machine → Prop
  | .stmt n s m, r, m' => exec n s m = .ok r m'
  | .stmts n body m, r, m' => execAll n body m = .ok r m'
  | .loop n condition body increment m, r, m' => iterate n condition body increment m = .ok r m'
  | _, _, _ => False

/-- The loop goes on from the machine with its increment and the next turn. -/
def Point.GoesOn : Point → Machine → Prop
  | .loop (n + 1) condition body increment m, m' =>
    iterate (n + 1) condition body increment m = goOn n condition body increment m'
  | _, _ => False

section Propagation

variable {P Q : Point} {r : Completion} {t : Machine}

theorem within_of_ok {α : Type} {e : Environment} {p : Run α} {a : α} {m t : Machine}
    (h : p { m with environment := e } = .ok a t) :
    within e p m = .ok a { t with environment := m.environment } := by
  unfold within
  simp only
  rw [h]

/-- What is not the normal end of a part ends the statement around it. -/
theorem Encloses.endsWith (h : Encloses P Q) (hr : r ≠ .normal) (hQ : Q.EndsWith r t) :
    ∃ e, P.EndsWith r { t with environment := e } := by
  cases h with
  | @block n body m inner m' hi =>
    have henvironment : environment m = .ok m.environment m := rfl
    exact ⟨m'.environment, (bind_of_ok henvironment).trans ((bind_of_ok hi).trans (within_of_ok hQ))⟩
  | thenBranch hc hv =>
    refine ⟨t.environment, (bind_of_ok hc).trans ?_⟩
    rw [if_pos hv]
    exact hQ
  | elseBranch hc hv =>
    refine ⟨t.environment, (bind_of_ok hc).trans ?_⟩
    rw [if_neg (Bool.eq_false_iff.1 hv)]
    exact hQ
  | firstStmt =>
    refine ⟨t.environment, (bind_of_ok hQ).trans ?_⟩
    cases r with
    | normal => exact absurd rfl hr
    | _ => rfl
  | restStmts hs => exact ⟨t.environment, (bind_of_ok hs).trans hQ⟩

theorem endsWith_of_encloses (h : Relation.ReflTransGen Encloses P Q) (hr : r ≠ .normal)
    (hQ : Q.EndsWith r t) : ∃ e, P.EndsWith r { t with environment := e } := by
  induction h using Relation.ReflTransGen.head_induction_on with
  | refl => exact ⟨t.environment, hQ⟩
  | head hfirst _ ih =>
    obtain ⟨e, hmiddle⟩ := ih
    obtain ⟨e', hends⟩ := hfirst.endsWith hr hmiddle
    exact ⟨e', hends⟩

end Propagation

/-- The code and the values of the point are placed. If a `break` may stand there, it is caught. -/
def Point.Placed (caught : Prop) : Point → Prop
  | .expr _ e _ => e.Placed
  | .exprs _ es _ => Expr.PlacedAll es
  | .call _ callee _ arguments _ => callee.Placed ∧ ∀ v ∈ arguments, v.Placed
  | .bind method receiver _ => method.Placed ∧ receiver.Placed
  | .invoke _ f arguments _ => f.Placed ∧ ∀ v ∈ arguments, v.Placed
  | .stmt _ s _ => ∃ inLoop, s.Placed inLoop true ∧ (inLoop = true → caught)
  | .stmts _ body _ => ∃ inLoop, Stmt.PlacedAll inLoop true body ∧ (inLoop = true → caught)
  | .loop _ condition body increment _ =>
    condition.Placed ∧ body.Placed true true ∧ Expr.Placed? increment
  | .each _ body _ => Stmt.PlacedAll false true body

theorem Point.Placed.mono {P : Point} {caught caught' : Prop} (h : P.Placed caught)
    (hcaught : caught → caught') : P.Placed caught' := by
  cases P with
  | stmt n s m =>
    obtain ⟨inLoop, hs, hc⟩ := h
    exact ⟨inLoop, hs, fun hloop => hcaught (hc hloop)⟩
  | stmts n body m =>
    obtain ⟨inLoop, hs, hc⟩ := h
    exact ⟨inLoop, hs, fun hloop => hcaught (hc hloop)⟩
  | _ => exact h

section Points

variable {P Q : Point} {caught caught' : Prop} {n : Nat} {m m' : Machine} {v : Value}

/-- A part of an evaluation is placed where the whole is. It is caught by the same loop, or by a turn
that it is the body of. -/
theorem Calls.placed (h : Calls P Q) (hm : P.start.heap.Placed) (hP : P.Placed caught)
    (hencloses : Encloses P Q → caught → caught') (hturn : Turn P Q → caught') :
    Q.start.heap.Placed ∧ Q.Placed caught' := by
  cases h with
  | grouping | operand | assigned | object => exact ⟨hm, hP⟩
  | left | condition | callee | setObject | firstExpr | turnCondition => exact ⟨hm, hP.1⟩
  | right hl _ => exact ⟨(eval_from hereditary_placed hP.1 hm hl).1, hP.2⟩
  | thenValue hc _ => exact ⟨(eval_from hereditary_placed hP.1 hm hc).1, hP.2.1⟩
  | elseValue hc _ => exact ⟨(eval_from hereditary_placed hP.1 hm hc).1, hP.2.2⟩
  | arguments hf => exact ⟨(eval_from hereditary_placed hP.1 hm hf).1, hP.2⟩
  | restExprs he => exact ⟨(eval_from hereditary_placed hP.1 hm he).1, hP.2⟩
  | call hf ha =>
    obtain ⟨hm', hv⟩ := eval_from hereditary_placed hP.1 hm hf
    obtain ⟨hstays, hvs⟩ :=
      ((keeping hereditary_placed _).evalAll (fun _ he => hP.2.of_mem he) _ hm').of_ok ha
    exact ⟨hstays.heap, hv, hvs⟩
  | @bindProperty _ object _ _ _ _ _ ho _ hfound =>
    have hobject : object.Placed := hP
    obtain ⟨hm', hv⟩ := eval_from hereditary_placed hobject hm ho
    exact ⟨hm', Class.From.method hv.receiver.cls hfound, hv.receiver⟩
  | setValue ho ht =>
    obtain ⟨hm', _⟩ := eval_from hereditary_placed hP.1 hm ho
    exact ⟨((propertyTable_keeps _ _ _ hm').of_ok ht).1.heap, hP.2⟩
  | bindSuper _ hs ht hfound =>
    have hcls := (getAt_from hm hs).cls
    exact ⟨hm, Class.From.method hcls hfound, (getAt_from hm ht).receiver⟩
  | function _ => exact ⟨hm, hP.1.function, hP.2⟩
  | bindInitializer _ ho hfound =>
    have hmethod := Class.From.method hP.1.cls hfound
    exact ⟨newObject_from hm ho, hmethod, hP.1.cls.newInstance _⟩
  | initializer _ ho hfound hb =>
    have hmethod := Class.From.method hP.1.cls hfound
    have hreceiver := hP.1.cls.newInstance
    obtain ⟨hstays, hf⟩ :=
      (bindMethod_keeps hmethod (hreceiver _) _ (newObject_from hm ho)).of_ok hb
    exact ⟨hstays.heap, hf, hP.2⟩
  | body hi =>
    have hstays := ((callEnvironment_keeps _ hP.2 _ hm).of_ok hi).1
    exact ⟨hstays.heap, false, Closure.Placed.body hP.1, fun h => Bool.noConfusion h⟩
  | expression | print | var =>
    obtain ⟨_, hs, _⟩ := hP
    exact ⟨hm, hs⟩
  | returned =>
    obtain ⟨_, hs, _⟩ := hP
    exact ⟨hm, hs.2⟩
  | block hi =>
    obtain ⟨inLoop, hs, hcaught⟩ := hP
    have hstays := ((child_keeps _ _ hm).of_ok hi).1
    exact ⟨hstays.heap, inLoop, hs, fun h => hencloses (.block hi) (hcaught h)⟩
  | iteCondition =>
    obtain ⟨_, hs, _⟩ := hP
    exact ⟨hm, hs.1⟩
  | thenBranch hc hv =>
    obtain ⟨inLoop, hs, hcaught⟩ := hP
    exact ⟨(eval_from hereditary_placed hs.1 hm hc).1, inLoop, hs.2.1,
      fun h => hencloses (.thenBranch hc hv) (hcaught h)⟩
  | elseBranch hc hv =>
    obtain ⟨inLoop, hs, hcaught⟩ := hP
    exact ⟨(eval_from hereditary_placed hs.1 hm hc).1, inLoop, hs.2.2,
      fun h => hencloses (.elseBranch hc hv) (hcaught h)⟩
  | loop =>
    obtain ⟨_, hs, _⟩ := hP
    exact ⟨hm, hs⟩
  | firstStmt =>
    obtain ⟨inLoop, hs, hcaught⟩ := hP
    exact ⟨hm, inLoop, hs.1, fun h => hencloses .firstStmt (hcaught h)⟩
  | restStmts hfirst =>
    obtain ⟨inLoop, hs, hcaught⟩ := hP
    exact ⟨exec_from hereditary_placed ⟨_, _, hs.1⟩ hm hfirst, inLoop, hs.2,
      fun h => hencloses (.restStmts hfirst) (hcaught h)⟩
  | turnBody hc hv =>
    exact ⟨(eval_from hereditary_placed hP.1 hm hc).1, true, hP.2.1, fun _ => hturn (.body hc hv)⟩
  | increment hc _ hb _ =>
    have hcondition := (eval_from hereditary_placed hP.1 hm hc).1
    exact ⟨exec_from hereditary_placed ⟨_, _, hP.2.1⟩ hcondition hb, hP.2.2⟩
  | nextTurn hc _ hb _ =>
    have hcondition := (eval_from hereditary_placed hP.1 hm hc).1
    exact ⟨exec_from hereditary_placed ⟨_, _, hP.2.1⟩ hcondition hb, hP⟩
  | nextTurnAfter hc _ hb _ hi =>
    have hm' := exec_from hereditary_placed ⟨_, _, hP.2.1⟩ (eval_from hereditary_placed hP.1 hm hc).1 hb
    exact ⟨(eval_from hereditary_placed hP.2.2 hm' hi).1, hP⟩
  | firstInput => exact ⟨hm, false, hP.1, fun h => Bool.noConfusion h⟩
  | restInput hs => exact ⟨exec_from hereditary_placed ⟨_, _, hP.1⟩ hm hs, hP.2⟩

/-- What a run of placed code comes to is placed, and each `break` or `continue` in it lies in a loop of
the run. -/
theorem Reaches.placed {start : Point} (h : Reaches start P) (hm : start.start.heap.Placed)
    (hstart : start.Placed False) :
    P.start.heap.Placed ∧ P.Placed (∃ loop, Reaches start loop ∧ InnermostLoop loop P) := by
  induction h with
  | refl => exact ⟨hm, hstart.mono False.elim⟩
  | tail hreaches hcalls ih =>
    refine hcalls.placed ih.1 ih.2 (fun hencloses hcaught => ?_) fun hturn => ?_
    · obtain ⟨loop, hloop, body, hbody, hchain⟩ := hcaught
      exact ⟨loop, hloop, body, hbody, hchain.tail hencloses⟩
    · exact ⟨_, hreaches, _, hturn, .refl⟩

/-- However a turn ends, it comes back to the environment of the loop. -/
theorem turn_environment {condition : Expr} (hc : eval n condition m = .ok v m') (body : Stmt) :
    (machineOf (exec n body m')).environment = m.environment := by
  have hn : Affecting Machine.Restored n := affecting n
  have hcondition := hn.eval condition m
  rw [hc] at hcondition
  exact (hn.exec body m').environment.trans hcondition.environment

/-- A turn that does not complete normally leaves the environment of the loop. -/
theorem InnermostLoop.turn {loop : Point} {r : Completion} {t : Machine} (h : InnermostLoop loop P)
    (hr : r ≠ .normal) (hP : P.EndsWith r t) :
    ∃ body, Turn loop body ∧ body.EndsWith r { t with environment := loop.start.environment } := by
  obtain ⟨body, hturn, hchain⟩ := h
  obtain ⟨e, hends⟩ := endsWith_of_encloses hchain hr hP
  refine ⟨body, hturn, ?_⟩
  cases hturn with
  | @body n condition body increment m v m' hc hv =>
    have he := turn_environment hc body
    rw [show exec n body m' = _ from hends] at he
    obtain rfl : e = m.environment := he
    exact hends

/-- A statement that may stand in loops only ends a turn of the innermost one around it. -/
theorem Reaches.turn {start : Point} {s : Stmt} {r : Completion} {t : Machine}
    (h : Reaches start (.stmt n s t)) (hm : start.start.heap.Placed) (hstart : start.Placed False)
    (hs : ∀ inLoop, s.Placed inLoop true → inLoop = true) (hr : r ≠ .normal)
    (hends : exec n s t = .ok r t) :
    ∃ loop body, Reaches start loop ∧ InnermostLoop loop (.stmt n s t) ∧ Turn loop body ∧
      body.EndsWith r { t with environment := loop.start.environment } := by
  obtain ⟨_, inLoop, hplaced, hcaught⟩ := h.placed hm hstart
  obtain ⟨loop, hloop, hinnermost⟩ := hcaught (hs inLoop hplaced)
  obtain ⟨body, hturn, hbody⟩ := hinnermost.turn hr hends
  exact ⟨loop, body, hloop, hinnermost, hturn, hbody⟩

/-- A loop that a turn leaves by `break` ends normally. -/
theorem Turn.endsWith_break {loop body : Point} {t : Machine} (h : Turn loop body)
    (hbody : body.EndsWith .break t) : loop.EndsWith .normal t := by
  cases h with
  | body hc hv =>
    refine (bind_of_ok hc).trans ?_
    rw [if_pos hv]
    exact bind_of_ok hbody

/-- A loop whose turn ends by `continue` goes on. -/
theorem Turn.goesOn_continue {loop body : Point} {t : Machine} (h : Turn loop body)
    (hbody : body.EndsWith .continue t) : loop.GoesOn t := by
  cases h with
  | body hc hv =>
    refine (bind_of_ok hc).trans ?_
    rw [if_pos hv]
    refine (bind_of_ok hbody).trans ?_
    rename_i increment _ _ _
    cases increment <;> rfl

end Points

theorem Program.Placed.pieces {inBody : Bool} {p : Program} (h : p.Placed inBody) :
    ∀ q ∈ p.pieces, q.Placed := by
  cases p with
  | statements body => exact List.forall_mem_map.2 (body_placed h)
  | expression e => exact List.forall_mem_singleton.2 h

/-- The machines that have run nothing but what the parser makes of tokens, with any hops. -/
inductive Machine.Executed : Machine → Prop where
  | start (time : Float) : Executed (.start time)
  | run {m : Machine} (h : Executed m) (tokens : List Token) (allowExpression : Bool)
    (nextId : NodeId) (hops : HopMap) (fuel : Nat) :
    Executed (machineOf
      (Run.program fuel (parse tokens allowExpression nextId).program (m.addHops hops)))
  | shown {m : Machine} (h : Executed m) : Executed { m with printed := [] }

theorem Machine.Executed.placed {m : Machine} (h : m.Executed) : m.heap.Placed := by
  induction h with
  | start time => exact Heap.start_from time
  | @run m _ tokens allowExpression nextId hops fuel ih =>
    have hprogram := parse_placed tokens allowExpression nextId
    exact (program_keeps hereditary_placed fuel hprogram.pieces (m.addHops hops) ih).machine.heap
  | shown _ ih => exact ih

/-- Sessions run only what they have parsed. -/
theorem Session.Reachable.executed {s : Session} (h : s.Reachable) : s.machine.Executed := by
  induction h with
  | start time => exact .start time
  | @run s _ fuel mode source ih =>
    have hrun : Machine.Executed (machineOf (Run.program fuel (compile source mode s.nextId).program
        (s.machine.addHops (compile source mode s.nextId).hops))) := ih.run _ _ _ _ fuel
    by_cases hc : (compile source mode s.nextId).diagnostics = []
    · rw [run_accepted hc]
      exact hrun.shown
    · rw [run_rejected hc]
      exact ih

def breakToken : Token := .synthetic .break "break" 1

/-- A loop that a `break` ends, and then a `break` in no loop, which the parser reports. -/
def strayBreak : List Token :=
  [.synthetic .while "while" 1, .synthetic .leftParen "(" 1, .synthetic .true "true" 1,
    .synthetic .rightParen ")" 1, breakToken, .synthetic .semicolon ";" 1, breakToken,
    .synthetic .semicolon ";" 1]

end Lox
