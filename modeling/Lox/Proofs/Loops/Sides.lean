import Lox.Proofs.Evaluation.Restoring
import Lox.Proofs.Loops.Actions

/-!
Two runs of a program, of which the second one has increments in loop bodies. A turn of such a loop takes
more fuel there, so the two are compared for all amounts of fuel: where one of them has little against
the other, both end alike, or that one stops for want of fuel and has printed no more than the other.
-/

namespace Lox

open Run

/-- The one of two runs that has little fuel. -/
inductive Side where
  | first
  | second

/-- The run on the side has so little fuel that the other one can keep up with it. -/
def Side.Fuels : Side → Nat → Nat → Prop
  | first, n, k => 5 * n ≤ k
  | second, n, k => k ≤ n

/-- What has been printed stays. -/
def Machine.Prints (m m' : Machine) : Prop := m.printed <:+ m'.printed

instance : Effect Machine.Prints where
  refl _ := List.suffix_refl _
  trans := List.IsSuffix.trans
  heap _ _ := List.suffix_refl _
  print _ _ := List.suffix_cons _ _
  within h := h

/-- Two ends that are alike, unless the run on the side is out of fuel. Then the other one has printed
what it has. -/
inductive EndBeside {α β : Type} (side : Side) (S : Machine → Machine → Prop) (A : α → β → Prop) :
    EStateM.Result Halt Machine α → EStateM.Result Halt Machine β → Prop where
  | ok {a b m m'} (result : A a b) (state : S m m') : EndBeside side S A (.ok a m) (.ok b m')
  | error {halt m m'} (state : S m m') : EndBeside side S A (.error halt m) (.error halt m')
  | first {m r'} (hside : side = .first) (printed : m.printed <:+ (machineOf r').printed) :
    EndBeside side S A (.error .outOfFuel m) r'
  | second {r m'} (hside : side = .second) (printed : m'.printed <:+ (machineOf r).printed) :
    EndBeside side S A r (.error .outOfFuel m')

/-- Two runs that end so on machines that correspond. -/
def Run.Beside {α β : Type} (side : Side) (d : Detour) (K : List Bool)
    (A : List FrameId → α → β → Prop) (w : List FrameId) (p : Run α) (q : Run β) : Prop :=
  ∀ m m', m.Beside d K w m' →
    ∃ w', w <+: w' ∧ EndBeside side (Machine.Beside d K w') (A w') (p m) (q m')

variable {side : Side} {d : Detour} {K K' : List Bool} {w : List FrameId}

namespace Run.Beside

variable {α α' β β' : Type} {A : List FrameId → α → α' → Prop} {B : List FrameId → β → β' → Prop}
  {p : Run α} {q : Run α'} {f : α → Run β} {g : α' → Run β'}

theorem of_steady (h : Steady d K A w p q) : Run.Beside side d K A w p q := by
  intro m m' hm
  obtain ⟨w', hw, hends⟩ := h m m' hm
  refine ⟨w', hw, ?_⟩
  generalize p m = r at hends ⊢
  generalize q m' = r' at hends ⊢
  cases hends with
  | ok ha hm => exact .ok ha hm
  | error he hm =>
    subst he
    exact .error hm

theorem pure {a : α} {b : α'} (h : A w a b) :
    Run.Beside side d K A w (Pure.pure a : Run α) (Pure.pure b) := of_steady (.pure h)

/-- The first run has no fuel at all, and the second one has not printed less. -/
theorem exhausted_first (hq : Affects Machine.Prints q) :
    Run.Beside .first d K A w outOfFuel q := by
  intro m m' hm
  refine ⟨w, List.prefix_refl w, .first rfl ?_⟩
  rw [← hm.printed]
  exact hq m'

theorem exhausted_second (hp : Affects Machine.Prints p) :
    Run.Beside .second d K A w p outOfFuel := by
  intro m m' hm
  refine ⟨w, List.prefix_refl w, .second rfl ?_⟩
  rw [hm.printed]
  exact hp m

/-- What comes after a part with little fuel prints no less than the part. -/
theorem bind (hp : Run.Beside side d K A w p q) (hf : ∀ a, Affects Machine.Prints (f a))
    (hg : ∀ b, Affects Machine.Prints (g b))
    (hrest : ∀ w', w <+: w' → ∀ a b, A w' a b → Run.Beside side d K B w' (f a) (g b)) :
    Run.Beside side d K B w (p >>= f) (q >>= g) := by
  intro m m' hm
  obtain ⟨w', hw, hends⟩ := hp m m' hm
  generalize hr : p m = r at hends
  generalize hr' : q m' = r' at hends
  cases hends with
  | ok ha ht =>
    rw [bind_of_ok hr, bind_of_ok hr']
    obtain ⟨w'', hw', hlater⟩ := hrest w' hw _ _ ha _ _ ht
    exact ⟨w'', hw.trans hw', hlater⟩
  | error ht =>
    rw [bind_of_error hr, bind_of_error hr']
    exact ⟨w', hw, .error ht⟩
  | first hside hprinted =>
    rw [bind_of_error hr]
    refine ⟨w', hw, .first hside ?_⟩
    cases r' with
    | ok b t' =>
      rw [bind_of_ok hr']
      exact hprinted.trans (hg b t')
    | error halt t' =>
      rw [bind_of_error hr']
      exact hprinted
  | second hside hprinted =>
    rw [bind_of_error hr']
    refine ⟨w', hw, .second hside ?_⟩
    cases r with
    | ok a t =>
      rw [bind_of_ok hr]
      exact hprinted.trans (hf a t)
    | error halt t =>
      rw [bind_of_error hr]
      exact hprinted

/-- A part that takes no fuel. -/
theorem bind_steady (hp : Steady d K A w p q)
    (hrest : ∀ w', w <+: w' → ∀ a b, A w' a b → Run.Beside side d K B w' (f a) (g b)) :
    Run.Beside side d K B w (p >>= f) (q >>= g) := by
  intro m m' hm
  obtain ⟨w', hw, hends⟩ := hp m m' hm
  generalize hr : p m = r at hends
  generalize hr' : q m' = r' at hends
  cases hends with
  | ok ha ht =>
    rw [bind_of_ok hr, bind_of_ok hr']
    obtain ⟨w'', hw', hlater⟩ := hrest w' hw _ _ ha _ _ ht
    exact ⟨w'', hw.trans hw', hlater⟩
  | error he ht =>
    subst he
    rw [bind_of_error hr, bind_of_error hr']
    exact ⟨w', hw, .error ht⟩

/-- Both runs enter a scope and leave it. -/
theorem within {e e' : Environment} (he : e.Beside w K' e') (hp : Run.Beside side d K' A w p q) :
    Run.Beside side d K A w (within e p) (within e' q) := by
  intro m m' hm
  have hinner : Machine.Beside d K' w { m with environment := e } { m' with environment := e' } :=
    ⟨hm.heap, he, hm.hops, hm.hops', hm.printed, hm.time⟩
  obtain ⟨w', hw, hends⟩ := hp _ _ hinner
  have hmachine {t t' : Machine} (ht : t.Beside d K' w' t') :
      Machine.Beside d K w' { t with environment := m.environment }
        { t' with environment := m'.environment } :=
    ⟨ht.heap, hm.environment.mono hw, ht.hops, ht.hops', ht.printed, ht.time⟩
  refine ⟨w', hw, ?_⟩
  unfold Run.within
  simp only
  generalize p { m with environment := e } = r at hends ⊢
  generalize q { m' with environment := e' } = r' at hends ⊢
  cases hends with
  | ok ha ht => exact .ok ha (hmachine ht)
  | error ht => exact .error (hmachine ht)
  | first hside hprinted =>
    refine .first hside ?_
    cases r' <;> exact hprinted
  | second hside hprinted =>
    refine .second hside ?_
    cases r <;> exact hprinted

/-- Only the second run enters a scope, that of a loop body. The first one is where it was. -/
theorem withinAdded (hp : Run.Beside side d (true :: K) A w p q) (hrestores : Restores p) :
    Run.Beside side d K A w p
      (do Run.within (← access (.child (← environment))) q) := by
  intro m m' hm
  let inner : Environment := ⟨m'.heap.frames.size, m'.environment.frames⟩
  let entered : Machine := { m' with heap := (m'.heap.newFrame m'.environment.frames).2 }
  have hinner : Machine.Beside d (true :: K) w m { entered with environment := inner } :=
    ⟨hm.heap.newAdded m'.environment.frames, hm.environment.childAdded m'.heap.frames.size, hm.hops, hm.hops', hm.printed, hm.time⟩
  obtain ⟨w', hw, hends⟩ := hp _ _ hinner
  have hmachine {t t' : Machine} (ht : t.Beside d (true :: K) w' t')
      (he : t.environment = m.environment) :
      Machine.Beside d K w' t { t' with environment := m'.environment } := by
    refine ⟨ht.heap, ?_, ht.hops, ht.hops', ht.printed, ht.time⟩
    rw [he]
    exact hm.environment.mono hw
  have hback := (hrestores m).environment
  have henters : (do Run.within (← access (.child (← environment))) q : Run α') m' =
      Run.within inner q entered := rfl
  refine ⟨w', hw, ?_⟩
  rw [henters]
  unfold Run.within
  simp only
  generalize p m = r at hends hback ⊢
  generalize q { entered with environment := inner } = r' at hends ⊢
  cases hends with
  | ok ha ht => exact .ok ha (hmachine ht hback)
  | error ht => exact .error (hmachine ht hback)
  | first hside hprinted =>
    refine .first hside ?_
    cases r' <;> exact hprinted
  | second hside hprinted => exact .second hside hprinted

end Run.Beside

namespace Side

variable {n k c : Nat}

/-- The second run has `c` units of fuel more than it needs to keep up, if the first one has little. -/
def Spares : Side → Nat → Nat → Nat → Prop
  | first, c, n, k => 5 * n + c ≤ k
  | second, _, n, k => k ≤ n

theorem Spares.fuels (h : side.Spares c n k) : side.Fuels n k := by
  cases side with
  | first => exact Nat.le_trans (Nat.le_add_right _ c) h
  | second => exact h

/-- The second run takes one unit more, unless it is the one that may stop. -/
theorem Spares.succ (h : side.Spares (c + 1) n k) :
    (side = .second ∧ k = 0) ∨ ∃ j, k = j + 1 ∧ side.Spares c n j := by
  cases k with
  | zero =>
    cases side with
    | first => exact absurd h (Nat.not_succ_le_zero _)
    | second => exact .inl ⟨rfl, rfl⟩
  | succ j =>
    refine .inr ⟨j, rfl, ?_⟩
    cases side with
    | first => exact Nat.le_of_succ_le_succ h
    | second => exact Nat.le_of_succ_le h

theorem Fuels.spares (h : side.Fuels (n + 1) (k + 1)) : side.Spares 4 n k := by
  cases side with
  | first =>
    have hle : 5 * (n + 1) ≤ k + 1 := h
    show 5 * n + 4 ≤ k
    omega
  | second => exact Nat.le_of_succ_le_succ h

/-- Where the first run goes on, so does the second one, unless it is the one that may stop. -/
theorem Fuels.succ (h : side.Fuels (n + 1) k) :
    (side = .second ∧ k = 0) ∨ ∃ j, k = j + 1 ∧ side.Spares 4 n j := by
  cases k with
  | zero =>
    cases side with
    | first => exact absurd h (by simp [Fuels])
    | second => exact .inl ⟨rfl, rfl⟩
  | succ j => exact .inr ⟨j, rfl, h.spares⟩

end Side

end Lox
