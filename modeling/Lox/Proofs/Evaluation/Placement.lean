import Lox.Proofs.Evaluation.Provenance
import Lox.Proofs.Evaluation.Signals

/-!
Where the code that a machine has run has every `break` and `continue` in a loop, so have the functions
that the machine has.
-/

namespace Lox

open Run

/-- In the piece every `break` and `continue` is in a loop, or the piece may stand in one. -/
def Piece.Placed : Piece → Prop
  | .token _ => True
  | .expr e => e.Placed
  | .stmt s => ∃ inLoop inBody, s.Placed inLoop inBody
  | .lambda f => f.Placed

theorem Expr.PlacedAll.of_mem {es : List Expr} (h : Expr.PlacedAll es) {e : Expr} (he : e ∈ es) :
    e.Placed := by
  induction es with
  | nil => exact absurd he List.not_mem_nil
  | cons first rest ih =>
    rcases List.mem_cons.1 he with rfl | hrest
    · exact h.1
    · exact ih h.2 hrest

section Parts

variable {e? : Option Expr} {inLoop inBody : Bool}

theorem optionalExpr_placed (h : Expr.Placed? e?) : ∀ q ∈ Piece.ofExpr? e?, q.Placed := by
  cases e? with
  | none => exact List.forall_mem_nil _
  | some e => exact List.forall_mem_singleton.2 h

theorem optionalStmt_placed {s? : Option Stmt} (h : Stmt.Placed? inLoop inBody s?) :
    ∀ q ∈ Piece.ofStmt? s?, q.Placed := by
  cases s? with
  | none => exact List.forall_mem_nil _
  | some s => exact List.forall_mem_singleton.2 ⟨inLoop, inBody, h⟩

theorem declarations_placed {decls : List FunctionDecl} (h : FunctionDecl.PlacedAll decls) :
    ∀ q ∈ Piece.ofDeclarations decls, q.Placed := by
  induction decls with
  | nil => exact List.forall_mem_nil _
  | cons d rest ih =>
    obtain ⟨name, function⟩ := d
    exact List.forall_mem_cons.2 ⟨trivial, List.forall_mem_cons.2 ⟨h.1, ih h.2⟩⟩

theorem references_placed (ref? : Option Reference) : ∀ q ∈ Piece.ofReference? ref?, q.Placed := by
  cases ref? with
  | none => exact List.forall_mem_nil _
  | some ref => exact List.forall_mem_singleton.2 trivial

theorem body_placed {body : List Stmt} (h : Stmt.PlacedAll inLoop inBody body) :
    ∀ s ∈ body, (Piece.stmt s).Placed := fun _ hs => ⟨inLoop, inBody, h.of_mem hs⟩

end Parts

theorem hereditary_placed : Hereditary Piece.Placed := by
  intro p h
  cases p with
  | token t => exact List.forall_mem_nil _
  | expr e =>
    have h : e.Placed := h
    cases e with
    | literal | «variable» | this | super => simp [Piece.parts, Piece.Placed]
    | call callee paren arguments =>
      simpa [Piece.parts, Piece.Placed] using And.intro h.1 fun e he => Expr.PlacedAll.of_mem h.2 he
    | _ => simpa [Piece.parts, Piece.Placed, Expr.Placed] using h
  | stmt s =>
    obtain ⟨inLoop, inBody, h⟩ := h
    cases s with
    | expression | print => exact List.forall_mem_singleton.2 h
    | «break» | «continue» | breakError | continueError => exact List.forall_mem_singleton.2 trivial
    | var name initializer => exact List.forall_mem_cons.2 ⟨trivial, optionalExpr_placed h⟩
    | block body => exact List.forall_mem_map.2 (body_placed h)
    | ite condition thenBranch elseBranch =>
      refine List.forall_mem_cons.2 ⟨h.1, List.forall_mem_cons.2 ⟨⟨inLoop, inBody, h.2.1⟩, ?_⟩⟩
      exact optionalStmt_placed h.2.2
    | loop condition body increment =>
      refine List.forall_mem_cons.2 ⟨h.1, List.forall_mem_cons.2 ⟨⟨true, inBody, h.2.1⟩, ?_⟩⟩
      exact optionalExpr_placed h.2.2
    | function decl =>
      obtain ⟨name, function⟩ := decl
      have hdecls : FunctionDecl.PlacedAll [.mk name function] := ⟨h, trivial⟩
      exact declarations_placed hdecls
    | «return» keyword value => exact List.forall_mem_cons.2 ⟨trivial, optionalExpr_placed h.2⟩
    | «class» name superclass own statics =>
      refine List.forall_mem_cons.2 ⟨trivial, ?_⟩
      simp only [List.forall_mem_append]
      exact ⟨⟨references_placed superclass, declarations_placed h.1⟩, declarations_placed h.2⟩
  | lambda f =>
    cases f with
    | mk params body =>
      refine List.forall_mem_append.2 ⟨fun q hq => ?_, List.forall_mem_map.2 (body_placed h)⟩
      obtain ⟨t, _, rfl⟩ := List.mem_map.1 hq
      exact trivial

/-- Every function that the heap has is placed. -/
abbrev Heap.Placed (h : Heap) : Prop := h.From Piece.Placed

abbrev Value.Placed (v : Value) : Prop := v.From Piece.Placed

abbrev Closure.Placed (f : Closure) : Prop := f.From Piece.Placed

abbrev Instance.Placed (o : Instance) : Prop := o.From Piece.Placed

theorem Closure.Placed.body {f : Closure} (h : f.Placed) :
    Stmt.PlacedAll false true f.function.body := by
  have hfunction : f.function.Placed := h.function.2
  generalize f.function = function at hfunction
  cases function
  exact hfunction

end Lox
