import Lox.Proofs.Syntax.Parsing

/-!
What is kept while a text is read, whatever is wrong with it: the nodes that have been made, their
numbers, the names in them. An account says what its entries are and when they hold at a place in the
text. `Keeps A had p has` says that behind something with the entry `had` the reader `p` gets to
something with its entry, and the entry of a reader follows from those of its parts.
-/

namespace Lox

/-- The token is one of those that are read, and of one of the kinds. -/
structure Token.Among (T : Token → Prop) (kinds : List TokenKind) (t : Token) : Prop where
  word : T t
  kind : t.kind ∈ kinds

theorem Token.Among.mono {T : Token → Prop} {kinds kinds' : List TokenKind} {t : Token}
    (h : t.Among T kinds) (hkinds : kinds ⊆ kinds') : t.Among T kinds' := ⟨h.word, hkinds h.kind⟩

/-- The operators with an operand on each side. -/
def binaryOperators : List TokenKind := .comma :: Reader.operatorLevels.flatten

/-- What is kept of a text while it is read. An entry holds at a place in the text, of all that has been
read since some origin. What is read next may begin an account of its own, which is then put beside the
entry from before. -/
structure Account (T : Token → Prop) where
  Origin : Type
  Entry : Type
  empty : Entry
  beside : Entry → Entry → Entry
  origin : Cursor → Origin
  Holds : Origin → Cursor → Entry → Prop
  empty_beside : ∀ a, beside empty a = a
  beside_empty : ∀ a, beside a empty = a
  beside_assoc : ∀ a b c, beside (beside a b) c = beside a (beside b c)
  /-- The words that are left are such that `T` holds of them. -/
  words : ∀ {o c a}, Holds o c a → ∀ t ∈ c.rest, T t
  left : ∀ {o c a b}, Holds o c (beside a b) → Holds o c a
  start : ∀ {o c a}, Holds o c a → Holds (origin c) c empty
  append : ∀ {o c d a b}, Holds o c a → Holds (origin c) d b → Holds o d (beside a b)
  pass : ∀ {o c a} dropped {rest}, c.rest = dropped ++ rest → Holds o c a → Holds o { c with rest } a
  report : ∀ {o c a} t fault, Holds o c a → Holds o (c.report t fault) a
  number : ∀ {o c a}, Holds o c a → Holds o { c with nextId := c.nextId + 1 } a

/-- A token of the kind is taken where it comes next, and anywhere else one is missing. -/
theorem Reader.expect_ends (kind : TokenKind) (what : Expected) (c : Cursor) :
    (∃ t rest, c.rest = t :: rest ∧ t.kind = kind ∧ expect kind what c = .ok t { c with rest }) ∨
      expect kind what c = .error .syntaxError (c.report c.here (.missing what)) := by
  unfold expect
  by_cases hnext : ∀ t ∈ c.rest.head?, t.kind ∉ [kind]
  · rw [accept_not_mem hnext]
    exact .inr rfl
  · obtain ⟨t, ht, hkind⟩ : ∃ t ∈ c.rest.head?, t.kind ∈ [kind] := by simpa using hnext
    obtain ⟨rest, hr⟩ := List.head?_eq_some_iff.1 ht
    rw [accept_mem hr hkind]
    exact .inl ⟨t, rest, hr, List.mem_singleton.1 hkind, rfl⟩

namespace Account

variable {T : Token → Prop} {A : Account T} {α β : Type} {n : Nat}

theorem drop {o : A.Origin} {c : Cursor} {a : A.Entry} (h : A.Holds o c a) : A.Holds o c A.empty :=
  A.left ((A.empty_beside a).symm ▸ h)

theorem resume {o : A.Origin} {c : Cursor} {a : A.Entry} (h : A.Holds o c a) : A.Holds o c.resume a := by
  obtain ⟨dropped, adv, _⟩ := Reader.advance_resume c
  have hresume : c.resume = { c with rest := c.resume.rest } := by
    unfold Cursor.resume
    split <;> rfl
  rw [hresume]
  exact A.pass dropped adv.rest h

/-- The one entry may be put for the other. -/
def Turns (A : Account T) (a b : A.Entry) : Prop := ∀ o c, A.Holds o c a → A.Holds o c b

theorem Turns.refl (a : A.Entry) : A.Turns a a := fun _ _ h => h

theorem Turns.trans {a b c : A.Entry} (h : A.Turns a b) (h' : A.Turns b c) : A.Turns a c :=
  fun o d hd => h' o d (h o d hd)

/-- The one entry may be put for the other where a fault is reported. -/
def Reports (A : Account T) (t : Token) (fault : SyntaxFault) (a b : A.Entry) : Prop :=
  ∀ o c, A.Holds o c a → A.Holds o (c.report t fault) b

/-- The one entry may be put for the other where an occurrence of a name gets its number. -/
def Numbers (A : Account T) (a : A.Entry) (b : NodeId → A.Entry) : Prop :=
  ∀ o c, A.Holds o c a → A.Holds o { c with nextId := c.nextId + 1 } (b c.nextId)

/-- The entry may be put down where the word is read. -/
def Takes (A : Account T) (t : Token) (a : A.Entry) : Prop :=
  ∀ o c rest, c.rest = t :: rest → A.Holds o c A.empty → A.Holds o { c with rest } a

theorem Turns.reports {a b : A.Entry} (h : A.Turns a b) (t : Token) (fault : SyntaxFault) :
    A.Reports t fault a b := fun o c hc => A.report t fault (h o c hc)

theorem Numbers.of_turns {a : A.Entry} {b : NodeId → A.Entry} (h : ∀ id, A.Turns a (b id)) :
    A.Numbers a b := fun o c hc => A.number (h c.nextId o c hc)

/-- A word may be passed over without an entry. -/
theorem takes_empty (t : Token) : A.Takes t A.empty := fun _ _ _ hr hc => A.pass [t] hr hc

def optional (A : Account T) (f : α → A.Entry) : Option α → A.Entry
  | none => A.empty
  | some a => f a

def all (A : Account T) (f : α → A.Entry) : List α → A.Entry
  | [] => A.empty
  | a :: rest => A.beside (f a) (A.all f rest)

theorem all_singleton (f : α → A.Entry) (a : α) : A.all f [a] = f a := A.beside_empty (f a)

/-- Behind something with one entry, the reader gets to something with its entry. -/
def Keeps (A : Account T) (had : A.Entry) (p : Reader α) (has : α → A.Entry) : Prop :=
  ∀ o c, A.Holds o c had →
    match p c with
    | .ok a d => A.Holds o d (has a)
    | .error _ d => A.Holds o d A.empty

namespace Keeps

variable {had : A.Entry} {has : α → A.Entry} {has' : β → A.Entry} {p : Reader α}

theorem pure {a : α} (h : A.Turns had (has a)) : A.Keeps had (pure a) has := h

theorem keep {a : α} : A.Keeps (has a) (Pure.pure a) has := pure (.refl _)

theorem mono (h : A.Keeps had p has) {has₂ : α → A.Entry} (hle : ∀ a, A.Turns (has a) (has₂ a)) :
    A.Keeps had p has₂ := by
  intro o c hc
  have hp := h o c hc
  cases hr : p c with
  | ok a d =>
    rw [hr] at hp
    exact hle a o d hp
  | error stop d =>
    rw [hr] at hp
    exact hp

theorem turn {had₂ : A.Entry} (h : A.Turns had had₂) (hp : A.Keeps had₂ p has) : A.Keeps had p has :=
  fun o c hc => hp o c (h o c hc)

theorem outOfFuel : A.Keeps had (Reader.outOfFuel (α := α)) has := fun _ _ hc => drop hc

theorem bind {f : α → Reader β} (h : A.Keeps had p has) (hf : ∀ a, A.Keeps (has a) (f a) has') :
    A.Keeps had (p >>= f) has' := by
  intro o c hc
  have hp := h o c hc
  cases hr : p c with
  | ok a d =>
    rw [hr] at hp
    rw [bind_of_ok hr]
    exact hf a o d hp
  | error stop d =>
    rw [hr] at hp
    rw [bind_of_error hr]
    exact hp

/-- The entry from before stays beside the new one. -/
theorem frame (h : A.Keeps A.empty p has) : A.Keeps had p fun a => A.beside had (has a) := by
  intro o c hc
  have hp := h (A.origin c) c (A.start hc)
  cases hr : p c with
  | ok a d =>
    rw [hr] at hp
    exact A.append hc hp
  | error stop d =>
    rw [hr] at hp
    exact drop (A.append hc hp)

theorem next {f : α → Reader β} (h : A.Keeps A.empty p has)
    (hf : ∀ a, A.Keeps (A.beside had (has a)) (f a) has') : A.Keeps had (p >>= f) has' :=
  bind h.frame hf

theorem map {f : α → β} (h : A.Keeps had p fun a => has' (f a)) : A.Keeps had (f <$> p) has' :=
  bind h fun _ => keep

/-- The next token decides what is read. -/
theorem choice {kinds : List TokenKind} {f : Option Token → Reader β}
    (hnone : A.Keeps had (f none) has')
    (hsome : ∀ t : Token, t.Among T kinds → A.Keeps had (f (some t)) has') :
    A.Keeps had (Reader.accept kinds >>= f) has' := by
  intro o c hc
  by_cases hnext : ∀ t ∈ c.rest.head?, t.kind ∉ kinds
  · rw [Reader.accept_not_mem hnext]
    exact hnone o c hc
  · obtain ⟨t, ht, hkind⟩ : ∃ t ∈ c.rest.head?, t.kind ∈ kinds := by simpa using hnext
    obtain ⟨rest, hr⟩ := List.head?_eq_some_iff.1 ht
    have hword : T t := A.words hc t (hr ▸ List.mem_cons_self)
    rw [Reader.accept_mem hr hkind]
    exact hsome t ⟨hword, hkind⟩ o _ (A.pass [t] hr hc)

/-- To look at the text takes no tokens. -/
theorem test {look : Cursor → α} {f : α → Reader β} (hf : ∀ x, A.Keeps had (f x) has') :
    A.Keeps had ((fun c => .ok (look c) c : Reader α) >>= f) has' :=
  fun o c hc => hf (look c) o c hc

theorem seesNamedFunction {f : Bool → Reader β} (hf : ∀ x, A.Keeps had (f x) has') :
    A.Keeps had (Reader.seesNamedFunction >>= f) has' := by
  intro o c hc
  obtain ⟨rest, last, nextId, log⟩ := c
  match rest with
  | [] | [_] | _ :: _ :: _ => exact hf _ o _ hc

theorem report {t : Token} {fault : SyntaxFault} {f : Unit → Reader β}
    (hf : A.Keeps had (f ()) has') : A.Keeps had (Reader.report t fault >>= f) has' :=
  fun o _ hc => hf o _ (A.report t fault hc)

theorem reportHere {fault : SyntaxFault} {f : Unit → Reader β} (hf : A.Keeps had (f ()) has') :
    A.Keeps had (Reader.reportHere fault >>= f) has' :=
  fun o c hc => hf o _ (A.report c.here fault hc)

/-- A node that stands for a fault is made with its report. -/
theorem reported {t : Token} {fault : SyntaxFault} {b : β} (h : A.Reports t fault had (has' b)) :
    A.Keeps had (do Reader.report t fault; Pure.pure b) has' := h

theorem missing {what : Expected} : A.Keeps had (Reader.missing (α := α) what) has :=
  fun _ _ hc => A.report _ _ (drop hc)

theorem expect {kind : TokenKind} {what : Expected} {f : Token → Reader β}
    (hf : ∀ t : Token, t.Among T [kind] → A.Keeps had (f t) has') :
    A.Keeps had (Reader.expect kind what >>= f) has' := by
  intro o c hc
  rcases Reader.expect_ends kind what c with ⟨t, rest, hr, hkind, hok⟩ | herror
  · have hword : T t := A.words hc t (hr ▸ List.mem_cons_self)
    rw [bind_of_ok hok]
    exact hf t ⟨hword, List.mem_singleton.2 hkind⟩ o _ (A.pass [t] hr hc)
  · rw [bind_of_error herror]
    exact A.report _ _ (drop hc)

/-- A name that is declared has an entry of its own. -/
theorem named {what : Expected} {entry : Token → A.Entry} {f : Token → Reader β}
    (hentry : ∀ t : Token, t.Among T [.identifier] → A.Takes t (entry t))
    (hf : ∀ t : Token, t.Among T [.identifier] → A.Keeps (A.beside had (entry t)) (f t) has') :
    A.Keeps had (Reader.expect .identifier what >>= f) has' := by
  intro o c hc
  rcases Reader.expect_ends .identifier what c with ⟨t, rest, hr, hkind, hok⟩ | herror
  · have hword : T t := A.words hc t (hr ▸ List.mem_cons_self)
    have ht : t.Among T [.identifier] := ⟨hword, List.mem_singleton.2 hkind⟩
    rw [bind_of_ok hok]
    exact hf t ht o _ (A.append hc (hentry t ht (A.origin c) c rest hr (A.start hc)))
  · rw [bind_of_error herror]
    exact A.report _ _ (drop hc)

/-- A node with the number of an occurrence. -/
theorem numbered {name : Token} {f : Reference → β}
    (h : A.Numbers had fun id => has' (f ⟨id, name⟩)) :
    A.Keeps had (do return f (← Reader.reference name)) has' := h

theorem recovering (h : A.Keeps A.empty p has) :
    A.Keeps A.empty (Reader.recovering p) (A.optional has) := by
  intro o c hc
  have hp := h o c hc
  unfold Reader.recovering
  cases hr : p c with
  | ok a d =>
    rw [hr] at hp
    exact hp
  | error stop d =>
    rw [hr] at hp
    cases stop with
    | outOfFuel => exact hp
    | syntaxError => exact resume hp

end Keeps

section Lists

variable {tooMany : SyntaxFault} {item : Reader α} {f : α → A.Entry}

theorem keeps_listed (h : A.Keeps A.empty item f) (count : Nat) :
    A.Keeps A.empty (Reader.listed tooMany item n count) (A.all f) := by
  induction n generalizing count with
  | zero => exact .outOfFuel
  | succ n ih =>
    have tail : A.Keeps A.empty
        (Reader.itemAndOthers item (Reader.listed tooMany item n (count + 1))) (A.all f) := by
      refine .bind h fun first => .choice (.pure ?_) fun _ _ => .next (ih (count + 1)) fun _ => .keep
      rw [all_singleton]
      exact .refl _
    by_cases hcount : Reader.maxListed ≤ count
    · rw [Reader.listed_full hcount]
      exact .reportHere tail
    · rw [Reader.listed_more hcount]
      exact tail

theorem keeps_listedOrNone (h : A.Keeps A.empty item f) :
    A.Keeps A.empty (Reader.listedOrNone n tooMany item) (A.all f) := by
  unfold Reader.listedOrNone
  apply Keeps.test
  intro b
  cases b with
  | true => exact .pure (.refl _)
  | false => exact keeps_listed h 0

theorem keeps_optional (h : A.Keeps A.empty item f) :
    A.Keeps A.empty (some <$> item) (A.optional f) := .map h

theorem keeps_unlessSees {closer : TokenKind} {expression : Reader Expr} {f : Expr → A.Entry}
    (h : A.Keeps A.empty expression f) :
    A.Keeps A.empty (Reader.unlessSees closer expression) (A.optional f) := by
  unfold Reader.unlessSees
  apply Keeps.test
  intro b
  cases b with
  | true => exact .pure (.refl _)
  | false => exact keeps_optional h

end Lists

end Account

end Lox
