/-!
How a computation with a state and errors ends, in terms of its parts, and when two computations end
alike.
-/

namespace Lox

section Bind

variable {ε σ α β : Type} {p : EStateM ε σ α} {s s' : σ} {e : ε}

theorem bind_of_ok {f : α → EStateM ε σ β} {a : α} (hp : p s = .ok a s') :
    (p >>= f) s = f a s' := by
  show EStateM.bind p f s = _
  rw [EStateM.bind, hp]

theorem bind_of_error {f : α → EStateM ε σ β} (hp : p s = .error e s') :
    (p >>= f) s = .error e s' := by
  show EStateM.bind p f s = _
  rw [EStateM.bind, hp]

theorem bind_eq_ok {f : α → EStateM ε σ β} {b : β} (h : (p >>= f) s = .ok b s') :
    ∃ a t, p s = .ok a t ∧ f a t = .ok b s' := by
  cases hp : p s with
  | ok a t =>
    rw [bind_of_ok hp] at h
    exact ⟨a, t, rfl, h⟩
  | error e t =>
    rw [bind_of_error hp] at h
    cases h

end Bind

/-- Two ends that are alike, with results or with errors. -/
inductive EndAlike {ε σ α β : Type} (E : ε → ε → Prop) (S : σ → σ → Prop) (A : α → β → Prop) :
    EStateM.Result ε σ α → EStateM.Result ε σ β → Prop where
  | ok {a b s s'} (result : A a b) (state : S s s') : EndAlike E S A (.ok a s) (.ok b s')
  | error {e e' s s'} (error : E e e') (state : S s s') : EndAlike E S A (.error e s) (.error e' s')

/-- Two computations that end alike on states that are alike. -/
def Agree {ε σ α β : Type} (E : ε → ε → Prop) (S : σ → σ → Prop) (A : α → β → Prop)
    (p : EStateM ε σ α) (q : EStateM ε σ β) : Prop :=
  ∀ s s', S s s' → EndAlike E S A (p s) (q s')

namespace Agree

variable {ε σ α α' β β' : Type} {E : ε → ε → Prop} {S : σ → σ → Prop} {A : α → α' → Prop}
  {B : β → β' → Prop} {p : EStateM ε σ α} {q : EStateM ε σ α'}

theorem pure {a : α} {b : α'} (h : A a b) :
    Agree E S A (Pure.pure a : EStateM ε σ α) (Pure.pure b) := fun _ _ hs => .ok h hs

theorem throw {e e' : ε} (h : E e e') :
    Agree E S A (MonadExcept.throw e : EStateM ε σ α) (MonadExcept.throw e') :=
  fun _ _ hs => .error h hs

theorem bind {f : α → EStateM ε σ β} {g : α' → EStateM ε σ β'} (hp : Agree E S A p q)
    (hf : ∀ a b, A a b → Agree E S B (f a) (g b)) : Agree E S B (p >>= f) (q >>= g) := by
  intro s s' hs
  have hends := hp s s' hs
  cases hps : p s with
  | ok a t =>
    cases hqs : q s' with
    | ok b t' =>
      rw [hps, hqs] at hends
      cases hends with
      | ok ha ht =>
        rw [bind_of_ok hps, bind_of_ok hqs]
        exact hf a b ha t t' ht
    | error e t' =>
      rw [hps, hqs] at hends
      cases hends
  | error e t =>
    cases hqs : q s' with
    | ok b t' =>
      rw [hps, hqs] at hends
      cases hends
    | error e' t' =>
      rw [hps, hqs] at hends
      cases hends with
      | error he ht =>
        rw [bind_of_error hps, bind_of_error hqs]
        exact .error he ht

theorem map {f : α → β} {g : α' → β'} (hp : Agree E S A p q) (hf : ∀ a b, A a b → B (f a) (g b)) :
    Agree E S B (f <$> p) (g <$> q) := bind hp fun a b hab => pure (hf a b hab)

end Agree

/-- Two computations that end alike on states that are alike. How states and results are alike depends
on what is listed of the state, and the list may grow. -/
def Meet {κ ε σ α β : Type} (E : ε → ε → Prop) (S : List κ → σ → σ → Prop)
    (A : List κ → α → β → Prop) (w : List κ) (p : EStateM ε σ α) (q : EStateM ε σ β) : Prop :=
  ∀ s s', S w s s' → ∃ w', w <+: w' ∧ EndAlike E (S w') (A w') (p s) (q s')

/-- Whatever holds of the state before the computation holds of the state after it. -/
def Lasts {ε σ α : Type} (I : σ → Prop) (p : EStateM ε σ α) : Prop :=
  ∀ s, I s → match p s with
    | .ok _ t => I t
    | .error _ t => I t

namespace Lasts

variable {ε σ α β : Type} {I : σ → Prop} {p : EStateM ε σ α}

theorem pure (a : α) : Lasts I (Pure.pure a : EStateM ε σ α) := fun _ hs => hs

theorem bind {f : α → EStateM ε σ β} (hp : Lasts I p) (hf : ∀ a, Lasts I (f a)) :
    Lasts I (p >>= f) := by
  intro s hs
  have hafter := hp s hs
  generalize hps : p s = r at hafter
  cases r with
  | ok a t =>
    rw [bind_of_ok hps]
    exact hf a t hafter
  | error e t =>
    rw [bind_of_error hps]
    exact hafter

end Lasts

namespace Meet

variable {κ ε σ α α' β β' : Type} {E : ε → ε → Prop} {S : List κ → σ → σ → Prop}
  {A : List κ → α → α' → Prop} {B : List κ → β → β' → Prop} {w : List κ}
  {p : EStateM ε σ α} {q : EStateM ε σ α'}

/-- Nothing is added to the list. -/
theorem of_agree (h : Agree E (S w) (A w) p q) : Meet E S A w p q := fun s s' hs =>
  ⟨w, List.prefix_refl w, h s s' hs⟩

theorem pure {a : α} {b : α'} (h : A w a b) :
    Meet E S A w (Pure.pure a : EStateM ε σ α) (Pure.pure b) := of_agree (.pure h)

theorem bind {f : α → EStateM ε σ β} {g : α' → EStateM ε σ β'} (hp : Meet E S A w p q)
    (hf : ∀ w', w <+: w' → ∀ a b, A w' a b → Meet E S B w' (f a) (g b)) :
    Meet E S B w (p >>= f) (q >>= g) := by
  intro s s' hs
  obtain ⟨w', hw, hends⟩ := hp s s' hs
  generalize hps : p s = r at hends
  generalize hqs : q s' = r' at hends
  cases hends with
  | ok ha ht =>
    rw [bind_of_ok hps, bind_of_ok hqs]
    obtain ⟨w'', hw', hrest⟩ := hf w' hw _ _ ha _ _ ht
    exact ⟨w'', hw.trans hw', hrest⟩
  | error he ht =>
    rw [bind_of_error hps, bind_of_error hqs]
    exact ⟨w', hw, .error he ht⟩

theorem map {f : α → β} {g : α' → β'} (hp : Meet E S A w p q)
    (hf : ∀ w' a b, A w' a b → B w' (f a) (g b)) : Meet E S B w (f <$> p) (g <$> q) :=
  bind hp fun w' _ a b hab => pure (hf w' a b hab)

/-- What the first computation preserves holds after both. -/
theorem lasting {I : σ → Prop} (hp : Meet E S A w p q) (hI : Lasts I p) :
    Meet E (fun w s s' => S w s s' ∧ I s) A w p q := by
  intro s s' hs
  obtain ⟨w', hw, hends⟩ := hp s s' hs.1
  have hafter := hI s hs.2
  refine ⟨w', hw, ?_⟩
  generalize p s = r at hends hafter ⊢
  generalize q s' = r' at hends ⊢
  cases hends with
  | ok ha ht => exact .ok ha ⟨ht, hafter⟩
  | error he ht => exact .error he ⟨ht, hafter⟩

/-- What the first computation brings about may be used after it. -/
theorem bind_with {I : σ → Prop} {f : α → EStateM ε σ β} {g : α' → EStateM ε σ β'}
    (hp : Meet E S A w p q) (hI : ∀ s s' a t, S w s s' → p s = .ok a t → I t)
    (hf : ∀ w', w <+: w' → ∀ a b, A w' a b →
      Meet E (fun w s s' => S w s s' ∧ I s) B w' (f a) (g b)) :
    Meet E S B w (p >>= f) (q >>= g) := by
  intro s s' hs
  obtain ⟨w', hw, hends⟩ := hp s s' hs
  generalize hps : p s = r at hends
  generalize hqs : q s' = r' at hends
  cases hends with
  | ok ha ht =>
    rw [bind_of_ok hps, bind_of_ok hqs]
    obtain ⟨w'', hw', hrest⟩ := hf w' hw _ _ ha _ _ ⟨ht, hI s s' _ _ hs hps⟩
    refine ⟨w'', hw.trans hw', ?_⟩
    generalize f _ _ = r at hrest ⊢
    generalize g _ _ = r' at hrest ⊢
    cases hrest with
    | ok hb hu => exact .ok hb hu.1
    | error he hu => exact .error he hu.1
  | error he ht =>
    rw [bind_of_error hps, bind_of_error hqs]
    exact ⟨w', hw, .error he ht⟩

end Meet

end Lox
