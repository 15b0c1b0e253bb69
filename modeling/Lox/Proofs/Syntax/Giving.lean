import Lox.Proofs.Outcome
import Lox.Proofs.Syntax.Leading
import Lox.Syntax.Grammar

/-!
Readers that report nothing. `Gives p words rest R` says that `p` reads from some words up to others,
whatever else the cursor holds.
-/

namespace Lox.Reader

open Phrase

variable {α β : Type} {n : Nat} {ts us vs rest : List Token}

/-- From some words the reader gets to others. It reports nothing, and its result is as stated. -/
def Gives (p : Reader α) (words rest : List Token) (R : α → Prop) : Prop :=
  ∀ last id log, ∃ a k, p ⟨words, last, id, log⟩ = .ok a ⟨rest, last, k, log⟩ ∧ R a

namespace Gives

variable {R : α → Prop} {S : β → Prop}

theorem pure {a : α} (h : R a) : Gives (pure a) ts ts R := fun _ id _ => ⟨a, id, rfl, h⟩

theorem mono {R' : α → Prop} {p : Reader α} (h : Gives p ts us R) (hR : ∀ a, R a → R' a) :
    Gives p ts us R' := by
  intro last id log
  obtain ⟨a, k, hp, ha⟩ := h last id log
  exact ⟨a, k, hp, hR a ha⟩

theorem bind {p : Reader α} {f : α → Reader β} (h : Gives p ts us R)
    (hf : ∀ a, R a → Gives (f a) us vs S) : Gives (p >>= f) ts vs S := by
  intro last id log
  obtain ⟨a, k, hp, ha⟩ := h last id log
  obtain ⟨b, l, hq, hb⟩ := hf a ha last k log
  exact ⟨b, l, (bind_of_ok hp).trans hq, hb⟩

theorem map {p : Reader α} {f : α → β} (h : Gives p ts us fun a => S (f a)) :
    Gives (f <$> p) ts us S := by
  intro last id log
  obtain ⟨a, k, hp, ha⟩ := h last id log
  refine ⟨f a, k, ?_, ha⟩
  show EStateM.map f p _ = _
  rw [EStateM.map, hp]

/-- The next word is of one of the kinds. -/
theorem accept {kinds : List TokenKind} {f : Option Token → Reader α} {t : Token}
    (ht : t.kind ∈ kinds) (h : Gives (f (some t)) ts us R) :
    Gives (accept kinds >>= f) (t :: ts) us R := by
  intro last id log
  obtain ⟨a, k, hp, ha⟩ := h last id log
  have haccept : Reader.accept kinds ⟨t :: ts, last, id, log⟩ = .ok (some t) ⟨ts, last, id, log⟩ :=
    if_pos ht
  exact ⟨a, k, (bind_of_ok haccept).trans hp, ha⟩

theorem reject {kinds : List TokenKind} {f : Option Token → Reader α} (hs : Stops kinds ts)
    (h : Gives (f none) ts us R) : Gives (Reader.accept kinds >>= f) ts us R := by
  intro last id log
  obtain ⟨a, k, hp, ha⟩ := h last id log
  have haccept : Reader.accept kinds ⟨ts, last, id, log⟩ = .ok none ⟨ts, last, id, log⟩ := by
    cases ts with
    | nil => rfl
    | cons t ts => exact if_neg (hs t rfl)
  exact ⟨a, k, (bind_of_ok haccept).trans hp, ha⟩

theorem expect {kind : TokenKind} {what : Expected} {f : Token → Reader α} {t : Token}
    (ht : t.kind = kind) (h : Gives (f t) ts us R) :
    Gives (expect kind what >>= f) (t :: ts) us R := by
  have ht : t.kind ∈ [kind] := by simp [ht]
  exact bind (R := (· = t)) (.accept ht (.pure rfl)) fun _ h' => h' ▸ h

theorem sees {kind : TokenKind} {f : Bool → Reader α}
    (h : Gives (f (ts.head?.any (·.kind == kind))) ts us R) : Gives (sees kind >>= f) ts us R := h

theorem ended {closers : List TokenKind} {f : Bool → Reader α}
    (h : Gives (f (ts.head?.all (·.kind ∈ closers))) ts us R) :
    Gives (ended closers >>= f) ts us R := h

theorem reference {name : Token} : Gives (reference name) ts ts (·.name = name) :=
  fun _ id _ => ⟨⟨id, name⟩, id + 1, rfl, rfl⟩

theorem recovering {p : Reader α} (h : Gives p ts us R) :
    Gives (recovering p) ts us fun a? => ∃ a, a? = some a ∧ R a := by
  intro last id log
  obtain ⟨a, k, hp, ha⟩ := h last id log
  refine ⟨some a, k, ?_, a, rfl, ha⟩
  unfold Reader.recovering
  rw [hp]

theorem namedFunction {f : Bool → Reader α} {keyword name : Token} (hk : keyword.kind = .fun)
    (hn : name.kind = .identifier) (h : Gives (f true) (keyword :: name :: ts) us R) :
    Gives (seesNamedFunction >>= f) (keyword :: name :: ts) us R := by
  intro last id log
  obtain ⟨a, k, hp, ha⟩ := h last id log
  have hsees : seesNamedFunction ⟨keyword :: name :: ts, last, id, log⟩ =
      .ok true ⟨keyword :: name :: ts, last, id, log⟩ := by
    show EStateM.Result.ok (keyword.kind == .fun && name.kind == .identifier) _ = _
    rw [hk, hn]
    rfl
  exact ⟨a, k, (bind_of_ok hsees).trans hp, ha⟩

/-- Without `fun` and a name in front there is no function declaration. -/
theorem noFunction {f : Bool → Reader α} (hs : NamesNoFunction ts)
    (h : Gives (f false) ts us R) : Gives (seesNamedFunction >>= f) ts us R := by
  intro last id log
  obtain ⟨a, k, hp, ha⟩ := h last id log
  have hsees : seesNamedFunction ⟨ts, last, id, log⟩ = .ok false ⟨ts, last, id, log⟩ := by
    match ts with
    | [] => rfl
    | [t] => rfl
    | t :: u :: vs =>
      have hb : (t.kind == .fun && u.kind == .identifier) = false := by
        cases hfun : t.kind == .fun with
        | false => rfl
        | true => simpa using hs t u vs rfl (by simpa using hfun)
      show EStateM.Result.ok (t.kind == .fun && u.kind == .identifier) _ = _
      rw [hb]
  exact ⟨a, k, (bind_of_ok hsees).trans hp, ha⟩

end Gives

theorem sees_of_stops {kind : TokenKind} (h : Stops [kind] ts) :
    ts.head?.any (·.kind == kind) = false := by
  cases ts with
  | nil => rfl
  | cons t ts => simpa using h t rfl

end Lox.Reader
