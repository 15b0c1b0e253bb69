import Lox.Proofs.Evaluation.Frames

/-!
What holds of everything that a running program has: its values, its heap and its points.
-/

namespace Lox

open Run

/-- All of these are occurrences of the text. -/
def View.Knows (w : View) (os : List Occurrence) : Prop := ∀ o ∈ os, w.known o

/-- A closure is that of a function in the scopes that it was made in, or a method that was bound to
its receiver. -/
inductive Closure.Sound (w : View) (c : Closure) : Prop where
  | plain {Γ : Layers} (environment : Mirrors w c.environment Γ) (proper : c.function.Proper)
    (code : w.Knows (c.function.occurrences Γ)) (ordinary : c.isInitializer = false)
  | bound {method receiver m₀ h₀ own} {decl : FunctionDecl} {Γ : Layers}
    (bound : w.visited (.bind method receiver m₀))
    (made : Access.bindMethod method receiver m₀.heap = .ok c h₀)
    (hdecl : decl ∈ own) (hf : decl.function = method.function)
    (receives : w.Inner m₀.heap.frames.size)
    (this : w.heap.slot? m₀.heap.frames.size "this" = some (.assigned (.instance receiver)))
    (outer : Mirrors w method.environment Γ) (proper : c.function.Proper)
    (code : w.Knows (c.function.occurrences (Γ.ofReceiver own)))

/-- A method that is not bound has the environment of its class. -/
inductive Closure.Unbound (w : View) (c : Closure) : Prop where
  | intro {own} {decl : FunctionDecl} {Γ : Layers} (hdecl : decl ∈ own)
    (hf : decl.function = c.function) (outer : Mirrors w c.environment Γ)
    (proper : c.function.Proper) (code : w.Knows (c.function.occurrences (Γ.ofReceiver own)))

def Class.Sound (w : View) (cls : Class) : Prop :=
  ∀ body ∈ cls.own :: cls.ancestors, ∀ (x : String) (method : Closure),
    body.methods[x]? = some method → method.Unbound w

def Value.Sound (w : View) : Value → Prop
  | .function c => c.Sound w
  | .class cls => cls.Sound w
  | .instance object => object.cls.Sound w
  | _ => True

/-- Every value in the heap is sound. -/
structure View.Sound (w : View) : Prop where
  global : 0 < w.heap.frames.size
  slots : ∀ frame x v, w.heap.slot? frame x = some (.assigned v) → v.Sound w
  properties : ∀ object x v, w.heap.property? object x = some v → v.Sound w

/-! What is sound stays so. -/

section

variable {w w' : View}

theorem View.Knows.mono {os : List Occurrence} (h : w.Knows os) (hle : w.Le w') : w'.Knows os :=
  fun o ho => hle.known o (h o ho)

theorem Closure.Sound.mono {c : Closure} (h : c.Sound w) (hle : w.Le w') : c.Sound w' := by
  cases h with
  | plain environment proper code ordinary =>
    exact .plain (environment.mono hle) proper (code.mono hle) ordinary
  | bound bound made hdecl hf receives this outer proper code =>
    exact .bound (hle.visited _ bound) made hdecl hf (receives.mono hle)
      (Mirrors.fixed hle receives (.inl rfl) this) (outer.mono hle) proper (code.mono hle)

theorem Closure.Unbound.mono {c : Closure} (h : c.Unbound w) (hle : w.Le w') : c.Unbound w' := by
  obtain ⟨hdecl, hf, outer, proper, code⟩ := h
  exact ⟨hdecl, hf, outer.mono hle, proper, code.mono hle⟩

theorem Class.Sound.mono {cls : Class} (h : cls.Sound w) (hle : w.Le w') : cls.Sound w' :=
  fun body hbody x method hmethod => (h body hbody x method hmethod).mono hle

theorem Value.Sound.mono {v : Value} (h : v.Sound w) (hle : w.Le w') : v.Sound w' := by
  cases v with
  | function c => exact Closure.Sound.mono h hle
  | «class» cls => exact Class.Sound.mono h hle
  | «instance» object => exact Class.Sound.mono h hle
  | _ => exact trivial

/-- A heap stays sound when every new value in it is. -/
theorem View.Sound.update (h : w.Sound) (hle : w.Le w')
    (hslots : ∀ frame x v, w'.heap.slot? frame x = some (.assigned v) →
      w.heap.slot? frame x = some (.assigned v) ∨ v.Sound w')
    (hproperties : ∀ object x v, w'.heap.property? object x = some v →
      w.heap.property? object x = some v ∨ v.Sound w') : w'.Sound := by
  refine ⟨Nat.lt_of_lt_of_le h.global hle.size, ?_, ?_⟩
  · intro frame x v hv
    rcases hslots frame x v hv with hold | hnew
    · exact (h.slots frame x v hold).mono hle
    · exact hnew
  · intro object x v hv
    rcases hproperties object x v hv with hold | hnew
    · exact (h.properties object x v hold).mono hle
    · exact hnew

theorem View.Sound.mono (h : w.Sound) (hle : w.Le w') (hheap : w'.heap = w.heap) : w'.Sound :=
  h.update hle (fun _ _ _ hv => .inl (hheap ▸ hv)) (fun _ _ _ hv => .inl (hheap ▸ hv))

theorem Class.Sound.method {cls : Class} (h : cls.Sound w) {x : String} {method : Closure}
    (hm : cls.method? x = some method) : method.Unbound w := by
  obtain ⟨body, hbody, hmethod⟩ := List.exists_of_findSome?_eq_some hm
  exact h body hbody x method hmethod

/-- The frame of running code exists. -/
theorem Mirrors.inner_lt {e : Environment} {Γ : Layers} (h : Mirrors w e Γ) (hw : w.Sound) :
    e.inner < w.heap.frames.size := by
  cases h with
  | global => exact hw.global
  | block _ inner => exact inner.2
  | call _ inner => exact inner.2
  | method _ inner => exact inner.2
  | super _ _ _ inner => exact inner.2

end

/-- What a whole run keeps to: the points that it passes, with every point that these call, and the
occurrences of its text, with the hops that lead to their names. -/
structure World where
  visited : Point → Prop
  calls : ∀ {P Q : Point}, visited P → Calls P Q → visited Q
  known : Occurrence → Prop
  hops : HopMap
  found : ∀ {o : Occurrence}, known o → o.Found hops

/-- The names whose initializer was begun in a frame. -/
abbrev Begun := FrameId → String → Prop

/-- The initializer of the name was begun in the frame, and it failed. -/
def Aborted (visited : Point → Prop) : Begun := fun frame x =>
  ∃ n name e m halt m', visited (.stmt (n + 1) (.var name (some e)) m) ∧
    m.environment.inner = frame ∧ name.lexeme = x ∧ eval n e m = .error halt m'

namespace World

def view (W : World) (begun : Begun) (h : Heap) : View := ⟨W.visited, W.known, begun, h⟩

/-- What is begun when an evaluation fails. -/
def aborted (W : World) (begun : Begun) : Begun := fun frame x =>
  begun frame x ∨ Aborted W.visited frame x

end World

/-- No name is taken from a frame, and `this` and `super` are not changed in it. -/
structure Heap.Grows (h h' : Heap) : Prop where
  size : h.frames.size ≤ h'.frames.size
  kept : ∀ frame x, (h.slot? frame x).isSome → (h'.slot? frame x).isSome
  fixed : ∀ frame < h.frames.size, ∀ x, Implicit x → h'.slot? frame x = h.slot? frame x

namespace Heap.Grows

variable {h h' h'' : Heap} {W : World} {begun begun' : Begun}

theorem refl (h : Heap) : h.Grows h := ⟨Nat.le_refl _, fun _ _ hx => hx, fun _ _ _ _ => rfl⟩

theorem trans (hg : h.Grows h') (hg' : h'.Grows h'') : h.Grows h'' := by
  refine ⟨Nat.le_trans hg.size hg'.size, fun frame x hx => hg'.kept frame x (hg.kept frame x hx), ?_⟩
  intro frame hframe x hx
  rw [hg'.fixed frame (Nat.lt_of_lt_of_le hframe hg.size) x hx, hg.fixed frame hframe x hx]

/-- An initializer that was begun is still begun, or it has given its value. -/
theorem le (hg : h.Grows h')
    (hb : ∀ frame x, begun frame x → begun' frame x ∨ (h'.slot? frame x).isSome) :
    (W.view begun h).Le (W.view begun' h') := by
  refine ⟨fun _ hP => hP, fun _ ho => ho, hg.size, ?_, hg.fixed⟩
  intro frame x hx
  rcases hx with hx | hx
  · exact .inl (hg.kept frame x hx)
  · exact (hb frame x hx).symm

theorem le_same (hg : h.Grows h') : (W.view begun h).Le (W.view begun h') :=
  hg.le fun _ _ hx => .inl hx

end Heap.Grows

namespace Machine

structure Sound (W : World) (begun : Begun) (m : Machine) : Prop where
  heap : (W.view begun m.heap).Sound
  hops : m.hops = W.hops

/-- What evaluation does to a machine: its heap grows, and its environment is the same in the end. -/
structure Keeps (m m' : Machine) : Prop where
  heap : m.heap.Grows m'.heap
  environment : m'.environment = m.environment

variable {m m' m'' : Machine} {W : World} {begun : Begun}

theorem Keeps.refl (m : Machine) : m.Keeps m := ⟨.refl _, rfl⟩

theorem Keeps.trans (h : m.Keeps m') (h' : m'.Keeps m'') : m.Keeps m'' :=
  ⟨h.heap.trans h'.heap, h'.environment.trans h.environment⟩

theorem Sound.aborted (h : m.Sound W begun) : m.Sound W (W.aborted begun) :=
  ⟨h.heap.mono ((Heap.Grows.refl _).le fun _ _ hx => .inl (.inl hx)) rfl, h.hops⟩

/-- The code of a machine is still in its scopes. -/
theorem Keeps.mirrors (h : m.Keeps m') {Γ : Layers}
    (hm : Mirrors (W.view begun m.heap) m.environment Γ) :
    Mirrors (W.view begun m'.heap) m'.environment Γ := by
  rw [h.environment]
  exact hm.mono h.heap.le_same

end Machine

namespace Point

/-- What is evaluated at a point is sound. -/
def Ready (w : View) : Point → Prop
  | expr _ e m => ∃ Γ : Layers, Mirrors w m.environment Γ ∧ e.Proper ∧ w.Knows (e.occurrences Γ)
  | exprs _ es m => ∃ Γ : Layers, Mirrors w m.environment Γ ∧ Expr.ProperAll es ∧
    w.Knows (Expr.occurrencesAll Γ es)
  | call _ callee _ arguments _ => callee.Sound w ∧ ∀ v ∈ arguments, v.Sound w
  | bind method receiver _ => method.Unbound w ∧ receiver.cls.Sound w
  | invoke _ called arguments _ => called.Sound w ∧ (∀ v ∈ arguments, v.Sound w) ∧
    arguments.length = called.function.arity
  | stmt _ s m => ∃ Γ : Layers, Mirrors w m.environment Γ ∧ s.Proper ∧ w.Knows (s.occurrences Γ)
  | stmts _ body m => ∃ Γ : Layers, Mirrors w m.environment Γ ∧ Stmt.ProperAll body ∧
    w.Knows (Stmt.occurrencesAll Γ body)
  | loop _ condition body increment m => ∃ Γ : Layers, Mirrors w m.environment Γ ∧
    (Stmt.loop condition body increment).Proper ∧
    w.Knows ((Stmt.loop condition body increment).occurrences Γ)
  | each _ body m => m.environment = .global ∧ Stmt.ProperAll body ∧
    w.Knows (Stmt.occurrencesAll [] body)

structure Sound (W : World) (begun : Begun) (P : Point) : Prop where
  visited : W.visited P
  machine : P.start.Sound W begun
  ready : P.Ready (W.view begun P.start.heap)

/-- What is begun within an evaluation. -/
def within (begun : Begun) : Point → Begun
  | stmt _ (.var name (some _)) m => fun frame x =>
    begun frame x ∨ (m.environment.inner = frame ∧ name.lexeme = x)
  | _ => begun

end Point

namespace World

/-- A value is sound in a heap. -/
def Gives (W : World) (begun : Begun) (h : Heap) (v : Value) : Prop := v.Sound (W.view begun h)

end World

/-- How a sound evaluation ends. -/
def Ends {α : Type} (W : World) (begun : Begun) (m : Machine) (Q : Heap → α → Prop) :
    EStateM.Result Halt Machine α → Prop
  | .ok a m' => m.Keeps m' ∧ m'.Sound W begun ∧ Q m'.heap a
  | .error _ m' => m.Keeps m' ∧ m'.Sound W (W.aborted begun)

namespace Ends

variable {α β : Type} {W : World} {begun : Begun} {m m' : Machine} {Q : Heap → α → Prop}
  {R : Heap → β → Prop}

theorem ok {a : α} (hm : m.Sound W begun) (ha : Q m.heap a) : Ends W begun m Q (.ok a m) :=
  ⟨.refl m, hm, ha⟩

theorem error {halt : Halt} (hm : m.Sound W begun) : Ends W begun m Q (.error halt m) :=
  ⟨.refl m, hm.aborted⟩

theorem bind {p : Run α} {k : α → Run β} (hp : Ends W begun m Q (p m))
    (hk : ∀ a m', p m = .ok a m' → m.Keeps m' → m'.Sound W begun → Q m'.heap a →
      Ends W begun m' R (k a m')) : Ends W begun m R ((p >>= k) m) := by
  show Ends W begun m R (EStateM.bind p k m)
  unfold EStateM.bind
  cases hpm : p m with
  | error halt m' =>
    rw [hpm] at hp
    exact hp
  | ok a m' =>
    rw [hpm] at hp
    obtain ⟨keeps, sound, ha⟩ := hp
    have hends := hk a m' hpm keeps sound ha
    show Ends W begun m R (k a m')
    cases hkm : k a m' with
    | error halt m'' =>
      rw [hkm] at hends
      exact ⟨keeps.trans hends.1, hends.2⟩
    | ok b m'' =>
      rw [hkm] at hends
      exact ⟨keeps.trans hends.1, hends.2⟩

theorem weaken {Q' : Heap → α → Prop} {r : EStateM.Result Halt Machine α}
    (h : Ends W begun m Q r) (hQ : ∀ h' a, m.heap.Grows h' → Q h' a → Q' h' a) :
    Ends W begun m Q' r := by
  cases r with
  | ok a m' => exact ⟨h.1, h.2.1, hQ m'.heap a h.1.heap h.2.2⟩
  | error halt m' => exact h

/-- An action in another environment ends as it does, and comes back. -/
theorem within {inner : Environment} {action : Run α}
    (h : Ends W begun { m with environment := inner } Q (action { m with environment := inner })) :
    Ends W begun m Q (Run.within inner action m) := by
  unfold Run.within
  simp only
  cases hr : action { m with environment := inner } with
  | ok a m' =>
    rw [hr] at h
    exact ⟨⟨h.1.heap, rfl⟩, ⟨h.2.1.heap, h.2.1.hops⟩, h.2.2⟩
  | error halt m' =>
    rw [hr] at h
    exact ⟨⟨h.1.heap, rfl⟩, ⟨h.2.heap, h.2.hops⟩⟩

end Ends

end Lox
