/-!
A list and one that has some more members, which are marked. The others correspond.
-/

namespace Lox

/-- The members of the second list correspond to those of the first one, in their order, but for those
that are marked as added. -/
inductive Padded {α β : Type} (R : α → β → Prop) (E : β → Prop) : List Bool → List α → List β → Prop where
  | nil : Padded R E [] [] []
  | same {K a b as bs} (h : R a b) (hs : Padded R E K as bs) :
    Padded R E (false :: K) (a :: as) (b :: bs)
  | added {K b as bs} (h : E b) (hs : Padded R E K as bs) : Padded R E (true :: K) as (b :: bs)

/-- The place of a member in the padded list, from its place in the other one. -/
def placeIn : List Bool → Nat → Nat
  | [], i => i
  | true :: K, i => placeIn K i + 1
  | false :: _, 0 => 0
  | false :: K, i + 1 => placeIn K i + 1

/-- The first member stays the first one, if none is added before it. -/
theorem placeIn_zero {K : List Bool} (hK : K.head? ≠ some true) : placeIn K 0 = 0 := by
  cases K with
  | nil => rfl
  | cons k K =>
    cases k with
    | true => exact absurd rfl hK
    | false => rfl

/-- One more member behind all others changes no place. -/
theorem placeIn_concat (K : List Bool) (i : Nat) : placeIn (K ++ [false]) i = placeIn K i := by
  induction K generalizing i with
  | nil => cases i <;> rfl
  | cons k K ih =>
    cases k with
    | true => exact congrArg (· + 1) (ih i)
    | false =>
      cases i with
      | zero => rfl
      | succ i => exact congrArg (· + 1) (ih i)

namespace Padded

variable {α β : Type} {R : α → β → Prop} {E : β → Prop} {K : List Bool} {as : List α} {bs : List β}

theorem imp {R' : α → β → Prop} {E' : β → Prop} (hR : ∀ a b, R a b → R' a b) (hE : ∀ b, E b → E' b)
    (h : Padded R E K as bs) : Padded R' E' K as bs := by
  induction h with
  | nil => exact .nil
  | same h _ ih => exact .same (hR _ _ h) ih
  | added h _ ih => exact .added (hE _ h) ih

theorem getElem? (h : Padded R E K as bs) (i : Nat) : Option.Rel R as[i]? bs[placeIn K i]? := by
  induction h generalizing i with
  | nil => exact .none
  | same h _ ih =>
    cases i with
    | zero => exact .some h
    | succ i => exact ih i
  | added _ _ ih => exact ih i

/-- What is found in the one list is found in the other, if it is not among what is added. -/
theorem findIdx? {p : α → Bool} {q : β → Bool} (hR : ∀ a b, R a b → q b = p a)
    (hE : ∀ b, E b → q b = false) (h : Padded R E K as bs) :
    bs.findIdx? q = (as.findIdx? p).map (placeIn K) := by
  induction h with
  | nil => rfl
  | @same K a b as bs h _ ih =>
    rw [List.findIdx?_cons, List.findIdx?_cons, hR a b h, ih]
    cases p a with
    | true => rfl
    | false =>
      rw [if_neg Bool.false_ne_true, if_neg Bool.false_ne_true, Option.map_map, Option.map_map]
      rfl
  | @added K b as bs h _ ih =>
    rw [List.findIdx?_cons, hE b h, ih, if_neg Bool.false_ne_true, Option.map_map]
    rfl

theorem modify {f : α → α} {g : β → β} (hf : ∀ a b, R a b → R (f a) (g b))
    (h : Padded R E K as bs) (i : Nat) :
    Padded R E K (as.modify i f) (bs.modify (placeIn K i) g) := by
  induction h generalizing i with
  | nil =>
    rw [List.modify_nil, List.modify_nil]
    exact .nil
  | same h hs ih =>
    cases i with
    | zero => exact .same (hf _ _ h) hs
    | succ i => exact .same h (ih i)
  | added h _ ih => exact .added h (ih i)

/-- Where the first member is not added, it corresponds to the first one of the other list. -/
theorem head (h : Padded R E K as bs) (hK : K.head? ≠ some true) :
    K = [] ∧ as = [] ∧ bs = [] ∨
      ∃ K' a as' b bs', K = false :: K' ∧ as = a :: as' ∧ bs = b :: bs' ∧ R a b ∧
        Padded R E K' as' bs' := by
  cases h with
  | nil => exact .inl ⟨rfl, rfl, rfl⟩
  | same h hs => exact .inr ⟨_, _, _, _, _, rfl, rfl, rfl, h, hs⟩
  | added => exact absurd rfl hK

end Padded

end Lox
