import Lox.Proofs.Scope.Moving
import Lox.Proofs.Scope.Walk
import Lox.Proofs.Syntax.Placement
import Lox.Proofs.Syntax.Relabel

/-!
Where the resolver reports nothing, no `return` stands outside of a function.
-/

namespace Lox

namespace Resolution

variable {s : Surroundings} {r : Resolution}

/-- A resolution beside the same one without its diagnostics. -/
theorem moved_quiet (r : Resolution) : Moved 0 0 (fun _ => none) r.log { r with log := [] } r where
  scopes := by
    show List.Forall₂ (Scope.Moved 0) r.scopes r.scopes
    rw [List.forall₂_same]
    intro scope _ name
    cases scope[name]? <;> rfl
  hops id := Option.or_none.symm
  log := rfl

section Logs

theorem log_expr {e : Expr} (h : (expr s e r).log = []) : r.log = [] := by
  have hmoved := r.moved_quiet.expr s e
  rw [show e.relabel (Token.down 0) (· + 0) = e from e.relabel_id] at hmoved
  exact (List.append_eq_nil_iff.1 (hmoved.log.symm.trans h)).2

theorem log_optionalExpr {e? : Option Expr} (h : (optionalExpr s e? r).log = []) : r.log = [] := by
  cases e? with
  | none => exact h
  | some e => exact log_expr h

theorem log_stmt {st : Stmt} (h : (stmt s st r).log = []) : r.log = [] := by
  have hmoved := r.moved_quiet.stmt s st
  rw [show st.relabel (Token.down 0) (· + 0) = st from st.relabel_id] at hmoved
  exact (List.append_eq_nil_iff.1 (hmoved.log.symm.trans h)).2

theorem log_optionalStmt {st? : Option Stmt} (h : (optionalStmt s st? r).log = []) :
    r.log = [] := by
  cases st? with
  | none => exact h
  | some st => exact log_stmt h

theorem log_stmts {body : List Stmt} (h : (stmts s body r).log = []) : r.log = [] := by
  induction body generalizing r with
  | nil => exact h
  | cons st rest ih => exact log_stmt (ih h)

end Logs

section Returns

mutual

theorem stmt_returnless (hs : s.body = .topLevel) : ∀ {inLoop : Bool} {st : Stmt}
    {r : Resolution}, (stmt s st r).log = [] → st.Placed inLoop true → st.Placed inLoop false
  | _, .expression _, _, _, hp => hp
  | _, .print _, _, _, hp => hp
  | _, .var _ _, _, _, hp => hp
  | _, .block body, r, h, hp => by
    have hbody : (stmts s body r.openScope).log = [] := closeScope_eq.2.2 h
    exact stmts_returnless hs hbody hp
  | _, .ite _ _ _, _, h, hp =>
    ⟨hp.1, stmt_returnless hs (log_optionalStmt h) hp.2.1, optionalStmt_returnless hs h hp.2.2⟩
  | _, .loop _ _ _, _, h, hp => ⟨hp.1, stmt_returnless hs (log_optionalExpr h) hp.2.1, hp.2.2⟩
  | _, .break _, _, _, hp => hp
  | _, .continue _, _, _, hp => hp
  | _, .breakError _, _, _, _ => trivial
  | _, .continueError _, _, _, _ => trivial
  | _, .function (.mk _ _), _, _, hp => hp
  | _, .return keyword value, r, h, _ => by
    have hfaults : (returnFaults keyword value.isSome s.body r).log = [] := log_optionalExpr h
    rw [returnFaults, if_pos hs] at hfaults
    exact absurd hfaults (log_report _ _)
  | _, .class _ _ _ _, _, _, hp => hp

theorem optionalStmt_returnless (hs : s.body = .topLevel) : ∀ {inLoop : Bool}
    {st? : Option Stmt} {r : Resolution}, (optionalStmt s st? r).log = [] →
    Stmt.Placed? inLoop true st? → Stmt.Placed? inLoop false st?
  | _, none, _, _, _ => trivial
  | _, some _, _, h, hp => stmt_returnless hs h hp

theorem stmts_returnless (hs : s.body = .topLevel) : ∀ {inLoop : Bool} {body : List Stmt}
    {r : Resolution}, (stmts s body r).log = [] → Stmt.PlacedAll inLoop true body →
    Stmt.PlacedAll inLoop false body
  | _, [], _, _, _ => trivial
  | _, _ :: _, _, h, hp => ⟨stmt_returnless hs (log_stmts h) hp.1, stmts_returnless hs h hp.2⟩

end

end Returns

end Resolution

theorem resolve_returnless {p : Program} (h : (resolve p).log = []) (hp : p.Placed true) :
    p.Placed false := by
  cases p with
  | statements body => exact Resolution.stmts_returnless rfl h hp
  | expression e => exact hp

end Lox
