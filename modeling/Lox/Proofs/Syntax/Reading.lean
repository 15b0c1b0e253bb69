import Lox.Syntax.Grammar

/-!
What holds of a reader at a cursor, and how that follows from its parts. `Yields c least D p` says
that `p` does not run out of fuel, that it only takes words off the front and only adds diagnostics,
and that without a new diagnostic `D` holds of the words that it takes, of those that follow and of
its result. `Reads` is the same where the words that follow do not matter.
-/

namespace Lox

/-- Reading has gone on from one cursor to another and has taken some words. -/
structure Cursor.Advance (c : Cursor) (taken : List Token) (c' : Cursor) : Prop where
  rest : c.rest = taken ++ c'.rest
  last : c'.last = c.last
  log : c.log.length ≤ c'.log.length

namespace Cursor.Advance

variable {c d e : Cursor} {ts us : List Token}

theorem refl (c : Cursor) : c.Advance [] c := ⟨rfl, rfl, Nat.le_refl _⟩

theorem trans (h : c.Advance ts d) (h' : d.Advance us e) : c.Advance (ts ++ us) e := by
  refine ⟨?_, h'.last.trans h.last, Nat.le_trans h.log h'.log⟩
  rw [h.rest, h'.rest, List.append_assoc]

theorem length (h : c.Advance ts d) : d.rest.length + ts.length = c.rest.length := by
  rw [h.rest, List.length_append]
  omega

theorem report (c : Cursor) (t : Token) (fault : SyntaxFault) : c.Advance [] (c.report t fault) :=
  ⟨rfl, rfl, Nat.le_succ _⟩

end Cursor.Advance

namespace Reader

variable {α β : Type} {c : Cursor} {k l : Nat}

/-- At least `least` words are taken with a result, and something is reported without one. -/
def Yields (c : Cursor) (least : Nat) (D : (taken following : List Token) → α → Prop)
    (p : Reader α) : Prop :=
  match p c with
  | .ok a c' => ∃ taken, c.Advance taken c' ∧ least ≤ taken.length ∧
      (c'.log.length = c.log.length → D taken c'.rest a)
  | .error .syntaxError c' => ∃ taken, c.Advance taken c' ∧ c.log.length < c'.log.length
  | .error .outOfFuel _ => False

def Reads (c : Cursor) (least : Nat) (D : (taken : List Token) → α → Prop) (p : Reader α) : Prop :=
  Yields c least (fun ts _ a => D ts a) p

theorem accept_mem {kinds : List TokenKind} {f : Option Token → Reader β} {t : Token}
    {rest : List Token} (hc : c.rest = t :: rest) (ht : t.kind ∈ kinds) :
    (accept kinds >>= f) c = f (some t) { c with rest } := by
  show EStateM.bind _ _ _ = _
  simp only [EStateM.bind, accept, hc, if_pos ht]

theorem accept_not_mem {kinds : List TokenKind} {f : Option Token → Reader β}
    (hc : ∀ t ∈ c.rest.head?, t.kind ∉ kinds) : (accept kinds >>= f) c = f none c := by
  obtain ⟨rest, last, nextId, log⟩ := c
  show EStateM.bind _ _ _ = _
  cases rest with
  | nil => rfl
  | cons t rest => simp only [EStateM.bind, accept, if_neg (hc t rfl)]

namespace Yields

variable {D : List Token → List Token → α → Prop}

theorem pure {a : α} (h : D [] c.rest a) : Yields c 0 D (pure a) :=
  ⟨[], .refl c, Nat.le_refl _, fun _ => h⟩

theorem mono {D' : List Token → List Token → α → Prop} {p : Reader α} (h : Yields c k D p)
    (hl : l ≤ k) (hD : ∀ ts us a, D ts us a → D' ts us a) : Yields c l D' p := by
  unfold Yields at h ⊢
  split
  next a c' hp =>
    rw [hp] at h
    obtain ⟨taken, adv, least, clean⟩ := h
    exact ⟨taken, adv, Nat.le_trans hl least, fun hc => hD _ _ _ (clean hc)⟩
  next c' hp => simpa only [hp] using h
  next c' hp => simp only [hp] at h

/-- The second reader starts where the first one stops, and derives the rest of the words. -/
theorem bind {D' : List Token → List Token → β → Prop} {p : Reader α} {f : α → Reader β}
    (h : Yields c k D p)
    (hf : ∀ a c' ts, c'.rest.length + ts.length = c.rest.length → k ≤ ts.length →
      Yields c' (l - k) (fun us vs b => D ts c'.rest a → D' (ts ++ us) vs b) (f a)) :
    Yields c l D' (p >>= f) := by
  unfold Yields at h ⊢
  show match EStateM.bind p f c with
    | .ok b c' => _
    | .error .syntaxError c' => _
    | .error .outOfFuel _ => _
  unfold EStateM.bind
  cases hp : p c with
  | error stop c' =>
    rw [hp] at h
    cases stop with
    | syntaxError => exact h
    | outOfFuel => exact h
  | ok a c' =>
    rw [hp] at h
    obtain ⟨ts, adv, least, clean⟩ := h
    have hb := hf a c' ts adv.length least
    unfold Yields at hb
    simp only
    cases hq : f a c' with
    | error stop c'' =>
      rw [hq] at hb
      cases stop with
      | syntaxError =>
        obtain ⟨us, adv', hl⟩ := hb
        exact ⟨ts ++ us, adv.trans adv', Nat.lt_of_le_of_lt adv.log hl⟩
      | outOfFuel => exact hb
    | ok b c'' =>
      rw [hq] at hb
      obtain ⟨us, adv', least', clean'⟩ := hb
      refine ⟨ts ++ us, adv.trans adv', ?_, fun hc => ?_⟩
      · rw [List.length_append]
        omega
      · have := adv.log
        have := adv'.log
        exact clean' (by omega) (clean (by omega))

theorem map {f : α → β} {D' : List Token → List Token → β → Prop} {p : Reader α}
    (h : Yields c k (fun ts us a => D' ts us (f a)) p) : Yields c k D' (f <$> p) := by
  unfold Yields at h ⊢
  show match EStateM.map f p c with
    | .ok b c' => _
    | .error .syntaxError c' => _
    | .error .outOfFuel _ => _
  unfold EStateM.map
  cases hp : p c with
  | error stop c' => rw [hp] at h; cases stop <;> exact h
  | ok a c' => rw [hp] at h; exact h

/-- Whether a token is accepted decides what is read next. -/
theorem accept {kinds : List TokenKind} {D : List Token → List Token → β → Prop}
    {f : Option Token → Reader β}
    (hnone : (∀ t ∈ c.rest.head?, t.kind ∉ kinds) → Yields c k D (f none))
    (hsome : ∀ t c', c.rest = t :: c'.rest → t.kind ∈ kinds →
      Yields c' (k - 1) (fun ts us b => D (t :: ts) us b) (f (some t))) :
    Yields c k D (accept kinds >>= f) := by
  by_cases hc : ∀ t ∈ c.rest.head?, t.kind ∉ kinds
  · have h := hnone hc
    unfold Yields at h ⊢
    rw [accept_not_mem hc]
    exact h
  · obtain ⟨t, ht, hk⟩ : ∃ t ∈ c.rest.head?, t.kind ∈ kinds := by simpa using hc
    obtain ⟨rest, hr⟩ := List.head?_eq_some_iff.1 ht
    have h := hsome t { c with rest } hr hk
    unfold Yields at h ⊢
    rw [accept_mem hr hk]
    split
    next a c' hp =>
      rw [hp] at h
      obtain ⟨taken, adv, least, clean⟩ := h
      refine ⟨t :: taken, ⟨hr.trans (congrArg _ adv.rest), adv.last, adv.log⟩, ?_, clean⟩
      rw [List.length_cons]
      omega
    next c' hp =>
      rw [hp] at h
      obtain ⟨taken, adv, hl⟩ := h
      exact ⟨t :: taken, ⟨hr.trans (congrArg _ adv.rest), adv.last, adv.log⟩, hl⟩
    next c' hp => simp only [hp] at h

end Yields

namespace Reads

variable {D : List Token → α → Prop}

theorem yields {D' : List Token → List Token → α → Prop} {p : Reader α} (h : Reads c k D p)
    (hl : l ≤ k) (hD : ∀ ts us a, D ts a → D' ts us a) : Yields c l D' p :=
  Yields.mono h hl hD

theorem of_ok {p : Reader α} {a : α} {c' : Cursor} (h : Reads c k D p) (hp : p c = .ok a c') :
    ∃ taken, c.Advance taken c' ∧ k ≤ taken.length ∧
      (c'.log.length = c.log.length → D taken a) := by
  unfold Reads Yields at h
  rwa [hp] at h

theorem of_fault {p : Reader α} {c' : Cursor} (h : Reads c k D p)
    (hp : p c = .error .syntaxError c') :
    ∃ taken, c.Advance taken c' ∧ c.log.length < c'.log.length := by
  unfold Reads Yields at h
  rwa [hp] at h

theorem not_outOfFuel {p : Reader α} (h : Reads c k D p) (c' : Cursor) :
    p c ≠ .error .outOfFuel c' := by
  intro hp
  unfold Reads Yields at h
  rwa [hp] at h

theorem pure {a : α} (h : D [] a) : Reads c 0 D (pure a) := Yields.pure h

theorem mono {D' : List Token → α → Prop} {p : Reader α} (h : Reads c k D p) (hl : l ≤ k)
    (hD : ∀ ts a, D ts a → D' ts a) : Reads c l D' p :=
  Yields.mono h hl fun ts _ a => hD ts a

theorem bind {D' : List Token → β → Prop} {p : Reader α} {f : α → Reader β} (h : Reads c k D p)
    (hf : ∀ a c' ts, c'.rest.length + ts.length = c.rest.length → k ≤ ts.length →
      Reads c' (l - k) (fun us b => D ts a → D' (ts ++ us) b) (f a)) : Reads c l D' (p >>= f) :=
  Yields.bind h hf

theorem map {f : α → β} {D' : List Token → β → Prop} {p : Reader α}
    (h : Reads c k (fun ts a => D' ts (f a)) p) : Reads c k D' (f <$> p) := Yields.map h

theorem accept {kinds : List TokenKind} {D : List Token → β → Prop} {f : Option Token → Reader β}
    (hnone : Reads c k D (f none))
    (hsome : ∀ t c', c'.rest.length + 1 = c.rest.length → t.kind ∈ kinds →
      Reads c' (k - 1) (fun ts b => D (t :: ts) b) (f (some t))) :
    Reads c k D (accept kinds >>= f) :=
  Yields.accept (fun _ => hnone) fun t c' hc ht => hsome t c' (by rw [hc]; rfl) ht

/-- Giving up is right whatever was to be read. -/
theorem missing {what : Expected} : Reads c k D (missing what) :=
  ⟨[], .report c c.here _, Nat.lt_succ_self _⟩

/-- What is given after a report need not be derived. -/
theorem report {t : Token} {fault : SyntaxFault} : Reads c 0 (fun _ _ => False) (report t fault) :=
  ⟨[], .report c t fault, Nat.le_refl _, fun h => absurd h (Nat.succ_ne_self _)⟩

theorem reportHere {fault : SyntaxFault} : Reads c 0 (fun _ _ => False) (reportHere fault) :=
  ⟨[], .report c c.here fault, Nat.le_refl _, fun h => absurd h (Nat.succ_ne_self _)⟩

theorem sees {kind : TokenKind} : Reads c 0 (fun ts _ => ts = []) (sees kind) :=
  ⟨[], .refl c, Nat.le_refl _, fun _ => rfl⟩

theorem ended {closers : List TokenKind} : Reads c 0 (fun ts _ => ts = []) (ended closers) :=
  ⟨[], .refl c, Nat.le_refl _, fun _ => rfl⟩

theorem reference {name : Token} :
    Reads c 0 (fun ts ref => ts = [] ∧ ref.name = name) (reference name) :=
  ⟨[], ⟨rfl, rfl, Nat.le_refl _⟩, Nat.le_refl _, fun _ => ⟨rfl, rfl⟩⟩

theorem expect {kind : TokenKind} {what : Expected} :
    Reads c 1 (fun ts t => ts = [t] ∧ t.kind = kind) (expect kind what) := by
  refine .accept .missing fun t c' _ ht => .pure ⟨rfl, ?_⟩
  simpa using ht

end Reads

section Lists

variable {tooMany : SyntaxFault} {item : Reader α} {n count : Nat}

/-- An item and, after a comma, the others. -/
def itemAndOthers (item : Reader α) (others : Reader (List α)) : Reader (List α) := do
  let first ← item
  match ← accept [.comma] with
  | none => pure [first]
  | some _ => return first :: (← others)

theorem listed_full (hcount : maxListed ≤ count) : listed tooMany item (n + 1) count =
    reportHere tooMany >>= fun _ => itemAndOthers item (listed tooMany item n (count + 1)) := by
  rw [listed, if_pos hcount]
  rfl

theorem listed_more (hcount : ¬ maxListed ≤ count) : listed tooMany item (n + 1) count =
    itemAndOthers item (listed tooMany item n (count + 1)) := by
  rw [listed, if_neg hcount]
  rfl

end Lists

end Reader

end Lox
