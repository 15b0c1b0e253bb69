import Lox.Proofs.Evaluation.Points
import Lox.Proofs.Scope.Resolving

/-!
How the frames of an environment answer to the scopes of a text. Each scope around a place has a frame
that was made when it was entered, and the frames lie inside one another as the scopes do.
-/

namespace Lox

open Run

/-- What is known while a program runs: the points that it passes, the occurrences of its text, the
names whose initializer was begun in a frame and has given no value, and the heap. -/
structure View where
  visited : Point → Prop
  known : Occurrence → Prop
  begun : FrameId → String → Prop
  heap : Heap

/-- The names that no text declares. -/
def Implicit (x : String) : Prop := x = "this" ∨ x = "super"

namespace View

variable {w w' w'' : View}

/-- A frame other than the global one. -/
def Inner (w : View) (frame : FrameId) : Prop := frame ≠ 0 ∧ frame < w.heap.frames.size

/-- The frame has the name, or it is still to come. -/
def Binds (w : View) (frame : FrameId) (x : String) : Prop :=
  (w.heap.slot? frame x).isSome ∨ w.begun frame x

/-- A later view. No name goes away, and `this` and `super` stay what they are. -/
structure Le (w w' : View) : Prop where
  visited : ∀ P, w.visited P → w'.visited P
  known : ∀ o, w.known o → w'.known o
  size : w.heap.frames.size ≤ w'.heap.frames.size
  binds : ∀ frame x, w.Binds frame x → w'.Binds frame x
  fixed : ∀ frame < w.heap.frames.size, ∀ x, Implicit x →
    w'.heap.slot? frame x = w.heap.slot? frame x

theorem Le.trans (h : w.Le w') (h' : w'.Le w'') : w.Le w'' := by
  refine ⟨fun P hP => h'.visited P (h.visited P hP), fun o ho => h'.known o (h.known o ho),
    Nat.le_trans h.size h'.size, fun frame x hx => h'.binds frame x (h.binds frame x hx), ?_⟩
  intro frame hframe x hx
  rw [h'.fixed frame (Nat.lt_of_lt_of_le hframe h.size) x hx, h.fixed frame hframe x hx]

theorem Inner.mono {frame : FrameId} (h : w.Inner frame) (hle : w.Le w') : w'.Inner frame :=
  ⟨h.1, Nat.lt_of_lt_of_le h.2 hle.size⟩

end View

/-- The frame was made for the scope, when a block, a call, the binding of a method or a class
statement entered it. -/
inductive Opened (visited : Point → Prop) : StaticScope → FrameId → Prop where
  | block {n body m} (h : visited (.stmt (n + 1) (.block body) m)) :
    Opened visited (.block body) m.heap.frames.size
  | call {n closure arguments m} (h : visited (.invoke (n + 1) closure arguments m)) :
    Opened visited (.function closure.function) m.heap.frames.size
  | bind {method receiver m own} {decl : FunctionDecl} (h : visited (.bind method receiver m))
    (hdecl : decl ∈ own) (hf : decl.function = method.function) :
    Opened visited (.receiver own) m.heap.frames.size
  | super {n name ref own statics m cls}
    (h : visited (.stmt (n + 1) (.class name (some ref) own statics) m))
    (hs : lookUp ref m = .ok (.class cls) m)
    (hn : m.heap.slot? m.environment.inner name.lexeme = none) :
    Opened visited (.super ref own statics) m.heap.frames.size

/-- The environment is that of code in the scopes, all of whose names are in its frames or have
their initializer begun there. -/
inductive Mirrors (w : View) : Environment → Layers → Prop where
  | global : Mirrors w .global []
  | block {n body m names Γ} (h : w.visited (.stmt (n + 1) (.block body) m))
    (inner : w.Inner m.heap.frames.size) (binds : ∀ x ∈ names, w.Binds m.heap.frames.size x)
    (outer : Mirrors w m.environment Γ) :
    Mirrors w ⟨m.heap.frames.size, m.environment.frames⟩ (⟨.block body, names⟩ :: Γ)
  | call {n closure arguments m names Γ} (h : w.visited (.invoke (n + 1) closure arguments m))
    (inner : w.Inner m.heap.frames.size) (binds : ∀ x ∈ names, w.Binds m.heap.frames.size x)
    (outer : Mirrors w closure.environment Γ) :
    Mirrors w ⟨m.heap.frames.size, closure.environment.frames⟩
      (⟨.function closure.function, names⟩ :: Γ)
  /-- A method runs in two frames, one for the receiver and one for the call. -/
  | method {n closure arguments m names method receiver m₀ h₀ own Γ} {decl : FunctionDecl}
    (h : w.visited (.invoke (n + 1) closure arguments m))
    (inner : w.Inner m.heap.frames.size) (binds : ∀ x ∈ names, w.Binds m.heap.frames.size x)
    (bound : w.visited (.bind method receiver m₀))
    (made : Access.bindMethod method receiver m₀.heap = .ok closure h₀)
    (hdecl : decl ∈ own) (hf : decl.function = method.function)
    (receives : w.Inner m₀.heap.frames.size)
    (this : w.heap.slot? m₀.heap.frames.size "this" = some (.assigned (.instance receiver)))
    (outer : Mirrors w method.environment Γ) :
    Mirrors w ⟨m.heap.frames.size, closure.environment.frames⟩
      (⟨.function closure.function, names⟩ :: ⟨.receiver own, ["this"]⟩ :: Γ)
  | super {n name ref own statics m cls names Γ}
    (h : w.visited (.stmt (n + 1) (.class name (some ref) own statics) m))
    (hs : lookUp ref m = .ok (.class cls) m)
    (hn : m.heap.slot? m.environment.inner name.lexeme = none)
    (inner : w.Inner m.heap.frames.size) (binds : ∀ x ∈ names, w.Binds m.heap.frames.size x)
    (super : w.heap.slot? m.heap.frames.size "super" = some (.assigned (.class cls)))
    (outer : Mirrors w m.environment Γ) :
    Mirrors w ⟨m.heap.frames.size, m.environment.frames⟩ (⟨.super ref own statics, names⟩ :: Γ)

/-- Binding a method puts one frame inside its environment. -/
theorem bindMethod_closure {method closure : Closure} {receiver : Instance} {h h' : Heap}
    (hb : Access.bindMethod method receiver h = .ok closure h') :
    closure.environment = ⟨h.frames.size, method.environment.frames⟩ ∧
      closure.function = method.function := by
  cases hb
  exact ⟨rfl, rfl⟩

theorem ancestor?_succ (frame : FrameId) (e : Environment) (i : Nat) :
    Environment.ancestor? ⟨frame, e.frames⟩ (i + 1) = e.ancestor? i := rfl

/-- A call of a bound method is two frames inside the environment of the class. -/
theorem ancestor?_bound {method closure : Closure} {receiver : Instance} {h h' : Heap}
    (hb : Access.bindMethod method receiver h = .ok closure h') (frame : FrameId) (i : Nat) :
    Environment.ancestor? ⟨frame, closure.environment.frames⟩ (i + 2) =
      method.environment.ancestor? i := by
  rw [ancestor?_succ, (bindMethod_closure hb).1, ancestor?_succ]

namespace Mirrors

variable {w w' : View} {e : Environment} {Γ : Layers}

theorem fixed {frame : FrameId} {x : String} {slot : Slot} (hle : w.Le w') (hi : w.Inner frame)
    (hx : Implicit x) (h : w.heap.slot? frame x = some slot) :
    w'.heap.slot? frame x = some slot := by
  rw [hle.fixed frame hi.2 x hx, h]

theorem mono (h : Mirrors w e Γ) (hle : w.Le w') : Mirrors w' e Γ := by
  have hbinds {frame : FrameId} {names : List String} (h : ∀ x ∈ names, w.Binds frame x) :
      ∀ x ∈ names, w'.Binds frame x := fun x hx => hle.binds frame x (h x hx)
  induction h with
  | global => exact .global
  | block h inner binds _ ih => exact .block (hle.visited _ h) (inner.mono hle) (hbinds binds) ih
  | call h inner binds _ ih => exact .call (hle.visited _ h) (inner.mono hle) (hbinds binds) ih
  | method h inner binds bound made hdecl hf receives this _ ih =>
    exact .method (hle.visited _ h) (inner.mono hle) (hbinds binds) (hle.visited _ bound) made hdecl
      hf (receives.mono hle) (fixed hle receives (.inl rfl) this) ih
  | super h hs hn inner binds super _ ih =>
    exact .super (hle.visited _ h) hs hn (inner.mono hle) (hbinds binds)
      (fixed hle inner (.inr rfl) super) ih

/-- Once a frame has a name, the innermost scope may have it. -/
theorem declare (h : Mirrors w e Γ) {x : String} (hx : w.Binds e.inner x) :
    Mirrors w e (Γ.declare x) := by
  cases h with
  | global => exact .global
  | block h inner binds outer => exact .block h inner (List.forall_mem_cons.2 ⟨hx, binds⟩) outer
  | call h inner binds outer => exact .call h inner (List.forall_mem_cons.2 ⟨hx, binds⟩) outer
  | method h inner binds bound made hdecl hf receives this outer =>
    exact .method h inner (List.forall_mem_cons.2 ⟨hx, binds⟩) bound made hdecl hf receives this outer
  | super h hs hn inner binds super outer =>
    exact .super h hs hn inner (List.forall_mem_cons.2 ⟨hx, binds⟩) super outer

/-- Every scope around the code has its frame. -/
theorem ancestor (h : Mirrors w e Γ) {i : Nat} {l : Layer} (hi : Γ[i]? = some l) :
    ∃ target, e.ancestor? i = some target ∧ w.Inner target.inner ∧
      Opened w.visited l.scope target.inner ∧ ∀ x ∈ l.names, w.Binds target.inner x := by
  induction h generalizing i with
  | global => exact nomatch hi
  | block h inner binds outer ih =>
    cases i with
    | zero =>
      cases hi
      exact ⟨_, rfl, inner, .block h, binds⟩
    | succ i => exact ih hi
  | call h inner binds outer ih =>
    cases i with
    | zero =>
      cases hi
      exact ⟨_, rfl, inner, .call h, binds⟩
    | succ i => exact ih hi
  | method h inner binds bound made hdecl hf receives this outer ih =>
    cases i with
    | zero =>
      cases hi
      exact ⟨_, rfl, inner, .call h, binds⟩
    | succ i =>
      rw [ancestor?_succ, (bindMethod_closure made).1]
      cases i with
      | zero =>
        cases hi
        refine ⟨_, rfl, receives, .bind bound hdecl hf, ?_⟩
        intro x hx
        obtain rfl := List.mem_singleton.1 hx
        exact .inl (by simp [this])
      | succ i => exact ih hi
  | super h hs hn inner binds super outer ih =>
    cases i with
    | zero =>
      cases hi
      exact ⟨_, rfl, inner, .super h hs hn, binds⟩
    | succ i => exact ih hi

/-- The scope of a receiver is not the innermost one of any code. -/
theorem receiver_outer (h : Mirrors w e Γ) (own : List FunctionDecl) (names : List String) :
    Γ[0]? ≠ some ⟨.receiver own, names⟩ := by
  cases h <;> simp

end Mirrors

/-- The frame at the depth is that of a call of a method that was bound to the receiver. -/
inductive InCall (visited : Point → Prop) (e : Environment) (depth : Nat) (receiver : Instance) :
    (method : Closure) → Prop where
  | intro {n closure arguments m method m₀ h₀} (bound : visited (.bind method receiver m₀))
    (made : Access.bindMethod method receiver m₀.heap = .ok closure h₀)
    (called : visited (.invoke (n + 1) closure arguments m))
    (frame : e.ancestor? depth = some ⟨m.heap.frames.size, closure.environment.frames⟩) :
    InCall visited e depth receiver method

/-- A frame more lies between. -/
theorem InCall.outward {visited : Point → Prop} {e : Environment} {depth : Nat} {receiver : Instance}
    {method : Closure} (h : InCall visited e depth receiver method) (frame : FrameId) :
    InCall visited ⟨frame, e.frames⟩ (depth + 1) receiver method := by
  obtain ⟨bound, made, called, hframe⟩ := h
  exact ⟨bound, made, called, hframe⟩

namespace Mirrors

variable {w : View} {e : Environment} {Γ : Layers}

/-- Code in a method runs in a call of the method, with the receiver one frame further out and the
scopes of the class from there. -/
theorem inCall (h : Mirrors w e Γ) {depth : Nat} {f : Lambda} {own : List FunctionDecl}
    {names names' : List String} (hf : Γ[depth]? = some ⟨.function f, names⟩)
    (hr : Γ[depth + 1]? = some ⟨.receiver own, names'⟩) :
    ∃ receiver method frame, InCall w.visited e depth receiver method ∧ method.function = f ∧
      e.ancestor? (depth + 1) = some ⟨frame, method.environment.frames⟩ ∧
      w.heap.slot? frame "this" = some (.assigned (.instance receiver)) ∧
      e.ancestor? (depth + 2) = some method.environment ∧
      Mirrors w method.environment (Γ.drop (depth + 2)) := by
  induction h generalizing depth with
  | global => exact nomatch hf
  | block _ _ _ _ ih =>
    cases depth with
    | zero => exact nomatch hf
    | succ depth =>
      obtain ⟨receiver, method, frame, hcall, hrest⟩ := ih hf hr
      exact ⟨receiver, method, frame, hcall.outward _, hrest⟩
  | call _ _ _ outer ih =>
    cases depth with
    | zero => exact absurd hr (outer.receiver_outer own names')
    | succ depth =>
      obtain ⟨receiver, method, frame, hcall, hrest⟩ := ih hf hr
      exact ⟨receiver, method, frame, hcall.outward _, hrest⟩
  | @method _ closure _ _ _ method receiver m₀ _ _ _ _ h inner binds bound made hdecl hmethod
      receives this outer ih =>
    obtain ⟨henv, hfunction⟩ := bindMethod_closure made
    match depth with
    | 0 =>
      cases hf
      have hone (frame : FrameId) : Environment.ancestor? ⟨frame, closure.environment.frames⟩ 1 =
          some ⟨m₀.heap.frames.size, method.environment.frames⟩ := by
        rw [ancestor?_succ, henv]
        rfl
      exact ⟨receiver, method, _, ⟨bound, made, h, rfl⟩, hfunction.symm, hone _, this,
        ancestor?_bound made _ 0, outer⟩
    | 1 => exact nomatch hf
    | depth + 2 =>
      obtain ⟨receiver', method', frame, hcall, hfun, hone, hthis, htwo, hm⟩ := ih hf hr
      have hcall' := hcall.outward m₀.heap.frames.size
      rw [← henv] at hcall'
      exact ⟨receiver', method', frame, hcall'.outward _, hfun, (ancestor?_bound made _ _).trans hone,
        hthis, (ancestor?_bound made _ _).trans htwo, hm⟩
  | super _ _ _ _ _ _ _ ih =>
    cases depth with
    | zero => exact nomatch hf
    | succ depth =>
      obtain ⟨receiver, method, frame, hcall, hrest⟩ := ih hf hr
      exact ⟨receiver, method, frame, hcall.outward _, hrest⟩

end Mirrors

end Lox
