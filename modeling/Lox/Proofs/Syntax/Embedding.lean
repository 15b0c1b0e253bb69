import Lox.Proofs.Syntax.Relabel
import Lox.Proofs.Syntax.Soundness

/-!
A text that is read inside a longer one: further down, with node numbers that go on from others, with
other words behind it and with diagnostics from before. A reader does there what it does on the text
alone, as long as it does not have to look past the end of the text.
-/

namespace Lox

/-- The token, some lines further down. -/
def Token.down (k : Nat) (t : Token) : Token := { t with line := t.line + k }

def Diagnostic.down (k : Nat) (d : Diagnostic) : Diagnostic := { d with line := d.line + k }

section Down

variable {k : Nat} {t : Token}

@[simp] theorem Token.down_kind : (t.down k).kind = t.kind := rfl

@[simp] theorem Token.down_lexeme : (t.down k).lexeme = t.lexeme := rfl

@[simp] theorem Token.down_literal : (t.down k).literal = t.literal := rfl

@[simp] theorem Token.down_zero : t.down 0 = t := rfl

theorem Token.down_zero_eq_id : Token.down 0 = id := rfl

theorem Token.down_down (j : Nat) : (t.down k).down j = t.down (k + j) := by
  simp only [Token.down, Nat.add_assoc]

@[simp] theorem Diagnostic.down_zero {d : Diagnostic} : d.down 0 = d := rfl

end Down

/-- What is around a text: the lines, the node numbers and the diagnostics that come before it, the
words that come after it, and the end mark behind them. -/
structure Setting where
  lines : Nat
  ids : Nat
  following : List Token
  last : Token
  log : List Diagnostic

namespace Setting

variable (s : Setting)

def token : Token → Token := Token.down s.lines

def number (id : NodeId) : NodeId := id + s.ids

def reference : Reference → Reference := Reference.relabel s.token s.number

def expr : Expr → Expr := Expr.relabel s.token s.number

def stmt : Stmt → Stmt := Stmt.relabel s.token s.number

def decl : FunctionDecl → FunctionDecl := FunctionDecl.relabel s.token s.number

def lambda : Lambda → Lambda := Lambda.relabel s.token s.number

def diagnostic : Diagnostic → Diagnostic := Diagnostic.down s.lines

@[simp] theorem token_kind (t : Token) : (s.token t).kind = t.kind := rfl

@[simp] theorem token_literal (t : Token) : (s.token t).literal = t.literal := rfl

end Setting

/-- The same place in the longer text. -/
def Cursor.within (s : Setting) (c : Cursor) : Cursor where
  rest := c.rest.map s.token ++ s.following
  last := s.last
  nextId := s.number c.nextId
  log := c.log.map s.diagnostic ++ s.log

namespace Setting

/-- Nothing is after the text, not even another end mark. -/
def Closed (s : Setting) (c : Cursor) : Prop := s.following = [] ∧ s.last = s.token c.last

/-- Stopping here, a reader has not looked past the end of the text, or what it has seen there is the
same. A `firm` reader only looks for an `else`. -/
def Ends (s : Setting) (firm : Bool) (c : Cursor) : Prop :=
  c.rest ≠ [] ∨ s.Closed c ∨ firm = true ∧ ∀ t ∈ s.following.head?, t.kind ≠ .else

/-- A firm reader of an expression asks for no word that follows, which is a semicolon. -/
def Quiet (s : Setting) (firm : Bool) : Prop :=
  firm = true → ∀ t ∈ s.following.head?, t.kind = .semicolon

theorem quiet_false (s : Setting) : s.Quiet false := nofun

/-- The last word does not make the words that follow the name of a function. -/
def Sure (s : Setting) (c : Cursor) : Prop :=
  s.following = [] ∨ ∀ t ∈ c.rest.getLast?, t.kind ≠ .fun

variable {s : Setting} {c d : Cursor} {taken : List Token} {firm b : Bool}

/-- A reader that stops at a good place has come by good places. They need not be firm if a word is
taken after them. -/
theorem Ends.back (h : s.Ends firm d) (adv : c.Advance taken d)
    (hsure : firm = true → b = true ∨ 1 ≤ taken.length) : s.Ends b c := by
  by_cases hword : taken = []
  · have hrest : c.rest = d.rest := by rw [adv.rest, hword, List.nil_append]
    rcases h with h | ⟨h, hlast⟩ | ⟨hfirm, h⟩
    · exact .inl (by rwa [hrest])
    · exact .inr (.inl ⟨h, by rw [hlast, adv.last]⟩)
    · have hsure := (hsure hfirm).resolve_right (by simp [hword])
      exact .inr (.inr ⟨hsure, h⟩)
  · left
    rw [adv.rest]
    simp [hword]

theorem Ends.loose (h : s.Ends false c) : s.Ends b c := h.back (.refl c) (by simp)

theorem Ends.closed (h : s.Ends false c) (hr : c.rest = []) : s.Closed c := by
  rcases h with h | h | h
  · exact absurd hr h
  · exact h
  · exact absurd h.1 (by decide)

theorem Sure.later (h : s.Sure c) (adv : c.Advance taken d) : s.Sure d := by
  rcases h with h | h
  · exact .inl h
  · right
    intro t ht
    apply h t
    rw [adv.rest, List.getLast?_append, Option.mem_def.1 ht]
    rfl

theorem rest_within_cons {t : Token} {rest : List Token} (h : c.rest = t :: rest) :
    (c.within s).rest = s.token t :: (rest.map s.token ++ s.following) := by
  simp [Cursor.within, h]

/-- A good place has the same next word. -/
theorem Ends.here (h : s.Ends false c) : (c.within s).here = s.token c.here := by
  unfold Cursor.here
  cases hr : c.rest with
  | nil =>
    obtain ⟨hf, hlast⟩ := h.closed hr
    simp [Cursor.within, hr, hf, hlast]
  | cons t rest => simp [rest_within_cons hr]

theorem report_within (t : Token) (fault : SyntaxFault) :
    (c.within s).report (s.token t) fault = (c.report t fault).within s := rfl

end Setting

namespace Reader

open Setting

variable {α α' β β' : Type} {s : Setting} {n m : Nat} {firm b : Bool} {k l : Nat}

/-- What reading a text alone gives, and what reading it in its setting gives, from one place on. -/
def Corresponds (s : Setting) (firm : Bool) (least : Nat) (φ : α → α') (c : Cursor)
    (alone : EStateM.Result ReadStop Cursor α) (inside : EStateM.Result ReadStop Cursor α') : Prop :=
  match alone with
  | .ok a d => ∃ taken, c.Advance taken d ∧ least ≤ taken.length ∧
      (s.Ends firm d → inside = .ok (φ a) (d.within s))
  | .error .syntaxError d => ∃ taken, c.Advance taken d ∧ c.log.length < d.log.length ∧
      (s.Ends false d → inside = .error .syntaxError (d.within s))
  | .error .outOfFuel _ => True

/-- On a text alone `p` does what `q` does on the text in its setting, unless it runs out of fuel. It
takes at least `least` words when it succeeds, and reports something when it does not. -/
def Follows (s : Setting) (firm : Bool) (least : Nat) (φ : α → α') (p : Reader α) (q : Reader α') :
    Prop :=
  ∀ c, s.Sure c → Corresponds s firm least φ c (p c) (q (c.within s))

namespace Corresponds

variable {φ : α → α'} {c d : Cursor} {r : EStateM.Result ReadStop Cursor α}
  {r' r'' : EStateM.Result ReadStop Cursor α'} {taken : List Token}

/-- The outcomes may be compared under the condition that the place where reading begins is good. -/
theorem of_eq (h : Corresponds s firm k φ c r r') (hsure : firm = true → b = true ∨ 1 ≤ k)
    (heq : s.Ends b c → r'' = r') : Corresponds s firm k φ c r r'' := by
  match r with
  | .error .outOfFuel _ => trivial
  | .error .syntaxError d =>
    obtain ⟨taken, adv, hlog, hr⟩ := h
    exact ⟨taken, adv, hlog, fun hd => (heq (hd.back adv (by simp))).trans (hr hd)⟩
  | .ok a d =>
    obtain ⟨taken, adv, hk, hr⟩ := h
    refine ⟨taken, adv, hk, fun hd => (heq (hd.back adv fun hf => ?_)).trans (hr hd)⟩
    exact (hsure hf).imp_right fun hk' => Nat.le_trans hk' hk

/-- Some words have been taken before. -/
theorem after (h : Corresponds s firm k φ d r r') (adv : c.Advance taken d)
    (hl : l ≤ taken.length + k) : Corresponds s firm l φ c r r' := by
  match r with
  | .error .outOfFuel _ => trivial
  | .error .syntaxError e =>
    obtain ⟨us, adv', hlog, hr⟩ := h
    exact ⟨taken ++ us, adv.trans adv', Nat.lt_of_le_of_lt adv.log hlog, hr⟩
  | .ok a e =>
    obtain ⟨us, adv', hk, hr⟩ := h
    refine ⟨taken ++ us, adv.trans adv', ?_, hr⟩
    rw [List.length_append]
    omega

end Corresponds

namespace Follows

variable {φ : α → α'} {ψ : β → β'} {p : Reader α} {q : Reader α'} {f : α → Reader β}
  {g : α' → Reader β'}

theorem outOfFuel : Follows s firm k φ Reader.outOfFuel q := fun _ _ => trivial

theorem pure {a : α} {a' : α'} (h : φ a = a') : Follows s firm 0 φ (pure a) (pure a') := by
  intro c _
  refine ⟨[], .refl c, Nat.le_refl _, fun _ => ?_⟩
  rw [h]
  rfl

theorem weaken (h : Follows s firm k φ p q) (hl : l ≤ k) : Follows s firm l φ p q :=
  fun c hs => (h c hs).after (.refl c) (by simpa using hl)

/-- The second reader starts where the first one stops. The place between them is good if the one at
the end is, and if it need not be firm or a word is taken after it. -/
theorem bind (hp : Follows s b k φ p q) (hf : ∀ a, Follows s firm l ψ (f a) (g (φ a)))
    (hsure : firm = true → b = true ∨ 1 ≤ l) :
    Follows s firm (k + l) ψ (p >>= f) (q >>= g) := by
  intro c hs
  have hc := hp c hs
  cases hpc : p c with
  | error stop d =>
    rw [hpc] at hc
    rw [bind_of_error hpc]
    cases stop with
    | outOfFuel => trivial
    | syntaxError =>
      obtain ⟨taken, adv, hlog, hq⟩ := hc
      exact ⟨taken, adv, hlog, fun hd => bind_of_error (hq hd)⟩
  | ok a d =>
    rw [hpc] at hc
    rw [bind_of_ok hpc]
    obtain ⟨taken, adv, hk, hq⟩ := hc
    have hd := hf a d (hs.later adv)
    have hstep : Corresponds s firm l ψ d (f a d) ((q >>= g) (c.within s)) :=
      hd.of_eq hsure fun hmid => bind_of_ok (hq hmid)
    exact hstep.after adv (by omega)

/-- Readers that may have to look past the end. -/
theorem loose (hp : Follows s b k φ p q) (hf : ∀ a, Follows s false l ψ (f a) (g (φ a))) :
    Follows s false l ψ (p >>= f) (q >>= g) :=
  (bind hp hf (by simp)).weaken (Nat.le_add_left l k)

/-- A reader that takes a word comes last. -/
theorem closing (hp : Follows s b k φ p q) (hf : ∀ a, Follows s firm 1 ψ (f a) (g (φ a))) :
    Follows s firm 1 ψ (p >>= f) (q >>= g) :=
  (bind hp hf (by simp)).weaken (Nat.le_add_left 1 k)

/-- Readers that look for an `else` at most. -/
theorem tight (hp : Follows s true k φ p q) (hf : ∀ a, Follows s firm 0 ψ (f a) (g (φ a))) :
    Follows s firm k ψ (p >>= f) (q >>= g) :=
  bind hp hf (by simp)

/-- Both readers may have to look as far as each other. -/
theorem even (hp : Follows s firm k φ p q) (hf : ∀ a, Follows s firm 0 ψ (f a) (g (φ a))) :
    Follows s firm k ψ (p >>= f) (q >>= g) :=
  bind hp hf fun hfirm => .inl hfirm

theorem map {h : α → β} {h' : α' → β'} (hp : Follows s firm k φ p q)
    (hh : ∀ a, ψ (h a) = h' (φ a)) : Follows s firm k ψ (h <$> p) (h' <$> q) := by
  have hbind : Follows s firm (k + 0) ψ (p >>= fun a => Pure.pure (h a))
      (q >>= fun a => Pure.pure (h' a)) := bind (b := firm) hp (fun a => pure (hh a)) (by simp)
  exact hbind

/-- A test of what comes next decides what is read. -/
theorem test {b : Cursor → Bool} {f : Bool → Reader β} {g : Bool → Reader β'}
    (hb : ∀ c, s.Sure c → s.Ends false c → b (c.within s) = b c)
    (hword : firm = true → 1 ≤ k) (hf : ∀ x, Follows s firm k ψ (f x) (g x)) :
    Follows s firm k ψ ((fun c => .ok (b c) c : Reader Bool) >>= f)
      ((fun c => .ok (b c) c : Reader Bool) >>= g) := by
  intro c hs
  have hc : Corresponds s firm k ψ c (f (b c) c) (g (b c) (c.within s)) := hf (b c) c hs
  refine hc.of_eq (b := false) (fun hfirm => .inr (hword hfirm)) fun hends => ?_
  rw [← hb c hs hends]
  rfl

theorem sees {kind : TokenKind} {f : Bool → Reader β} {g : Bool → Reader β'}
    (hf : ∀ b, Follows s false k ψ (f b) (g b)) :
    Follows s false k ψ (sees kind >>= f) (sees kind >>= g) := by
  refine test (b := fun c => c.rest.head?.any (·.kind == kind)) (fun c _ hends => ?_) (by simp) hf
  cases hr : c.rest with
  | nil => simp [Cursor.within, hr, (hends.closed hr).1]
  | cons t rest => simp [rest_within_cons hr]

theorem ended {closers : List TokenKind} {f : Bool → Reader β} {g : Bool → Reader β'}
    (hf : ∀ b, Follows s false k ψ (f b) (g b)) :
    Follows s false k ψ (ended closers >>= f) (ended closers >>= g) := by
  refine test (b := fun c => c.rest.head?.all (·.kind ∈ closers)) (fun c _ hends => ?_) (by simp) hf
  cases hr : c.rest with
  | nil => simp [Cursor.within, hr, (hends.closed hr).1]
  | cons t rest =>
    rw [rest_within_cons hr]
    rfl

theorem seesNamedFunction {f : Bool → Reader β} {g : Bool → Reader β'}
    (hword : firm = true → 1 ≤ k) (hf : ∀ b, Follows s firm k ψ (f b) (g b)) :
    Follows s firm k ψ (seesNamedFunction >>= f) (seesNamedFunction >>= g) := by
  let names : Cursor → Bool := fun c =>
    c.rest.head?.any (·.kind == .fun) && c.rest.tail.head?.any (·.kind == .identifier)
  have hsees : Reader.seesNamedFunction = fun c => .ok (names c) c := by
    funext c
    obtain ⟨rest, last, nextId, log⟩ := c
    rcases rest with _ | ⟨first, _ | ⟨second, rest⟩⟩
    · rfl
    · simp [Reader.seesNamedFunction, names]
    · rfl
  rw [hsees]
  refine test (fun c hsure hends => ?_) hword hf
  obtain ⟨rest, last, nextId, log⟩ := c
  rcases rest with _ | ⟨first, _ | ⟨second, rest⟩⟩
  · simp [names, Cursor.within, (hends.closed rfl).1]
  · -- One word is left. A name that follows it in the longer text is not seen in the shorter one.
    rcases hsure with hfollowing | hlast
    · simp [names, Cursor.within, hfollowing]
    · have hkind : first.kind ≠ .fun := hlast first rfl
      simp [names, Cursor.within, hkind]
  · rfl

theorem here {f : Token → Reader β} {g : Token → Reader β'}
    (hf : ∀ t, Follows s false k ψ (f t) (g (s.token t))) :
    Follows s false k ψ (here >>= f) (here >>= g) := by
  intro c hs
  have hc : Corresponds s false k ψ c (f c.here c) (g (s.token c.here) (c.within s)) := hf c.here c hs
  refine hc.of_eq (b := false) (by simp) fun hends => ?_
  rw [← hends.here]
  rfl

/-- A firm reader only asks where it may stop for words that do not follow, an `else` apart. -/
theorem seek {kinds : List TokenKind} {f : Option Token → Reader β} {g : Option Token → Reader β'}
    (hnone : Follows s firm k ψ (f none) (g none))
    (hsome : ∀ t : Token, t.kind ∈ kinds → Follows s firm (k - 1) ψ (f (some t)) (g (some (s.token t))))
    (hfirm : firm = true →
      (∀ t ∈ s.following.head?, t.kind ≠ .else → t.kind ∉ kinds) ∨ 1 ≤ k) :
    Follows s firm k ψ (accept kinds >>= f) (accept kinds >>= g) := by
  intro c hs
  by_cases hc : ∀ t ∈ c.rest.head?, t.kind ∉ kinds
  · have hnext {b : Bool} (hends : s.Ends b c)
        (hb : b = true → ∀ t ∈ s.following.head?, t.kind ≠ .else → t.kind ∉ kinds) :
        (Reader.accept kinds >>= g) (c.within s) = g none (c.within s) := by
      refine accept_not_mem fun t ht => ?_
      cases hr : c.rest with
      | cons u rest =>
        rw [rest_within_cons hr] at ht
        obtain rfl := Option.some.inj ht
        exact hc u (by rw [hr]; rfl)
      | nil =>
        have ht : t ∈ s.following.head? := by simpa [Cursor.within, hr] using ht
        rcases hends with h | h | ⟨hfirm, h⟩
        · exact absurd hr h
        · simp [h.1] at ht
        · exact hb hfirm t ht (h t ht)
    rw [accept_not_mem hc]
    by_cases hunseen : ∀ t ∈ s.following.head?, t.kind ≠ .else → t.kind ∉ kinds
    · exact (hnone c hs).of_eq (b := true) (fun _ => .inl rfl) fun hends =>
        hnext hends fun _ => hunseen
    · exact (hnone c hs).of_eq (b := false) (fun hf => .inr ((hfirm hf).resolve_left hunseen))
        fun hends => hnext hends nofun
  · obtain ⟨t, ht, hkind⟩ : ∃ t ∈ c.rest.head?, t.kind ∈ kinds := by simpa using hc
    obtain ⟨rest, hr⟩ := List.head?_eq_some_iff.1 ht
    have hadv : c.Advance [t] { c with rest } := ⟨hr, rfl, Nat.le_refl _⟩
    have hq : (Reader.accept kinds >>= g) (c.within s) =
        g (some (s.token t)) (Cursor.within s { c with rest }) :=
      accept_mem (rest_within_cons hr) hkind
    rw [accept_mem hr hkind, hq]
    refine (hsome t hkind { c with rest } (hs.later hadv)).after hadv ?_
    rw [List.length_singleton]
    omega

theorem accept {kinds : List TokenKind} {f : Option Token → Reader β} {g : Option Token → Reader β'}
    (hnone : Follows s firm k ψ (f none) (g none))
    (hsome : ∀ t : Token, t.kind ∈ kinds → Follows s firm (k - 1) ψ (f (some t)) (g (some (s.token t))))
    (hfirm : firm = true → kinds = [.else] ∨ 1 ≤ k) :
    Follows s firm k ψ (accept kinds >>= f) (accept kinds >>= g) := by
  refine seek hnone hsome fun hf => (hfirm hf).imp_left fun hkinds t _ helse => ?_
  rw [hkinds]
  exact fun hmem => helse (List.mem_singleton.1 hmem)

/-- A word that goes on with an expression decides. -/
theorem goOn {kinds : List TokenKind} {f : Option Token → Reader β} {g : Option Token → Reader β'}
    (hq : s.Quiet firm) (hkinds : .semicolon ∉ kinds) (hnone : Follows s firm 0 ψ (f none) (g none))
    (hsome : ∀ t : Token, t.kind ∈ kinds → Follows s firm 0 ψ (f (some t)) (g (some (s.token t)))) :
    Follows s firm 0 ψ (Reader.accept kinds >>= f) (Reader.accept kinds >>= g) :=
  seek hnone hsome fun hfirm => .inl fun t ht _ => hq hfirm t ht ▸ hkinds

/-- A word decides, and readers that may have to look past the end come after it. -/
theorem choice {kinds : List TokenKind} {f : Option Token → Reader β}
    {g : Option Token → Reader β'} (hnone : Follows s false 0 ψ (f none) (g none))
    (hsome : ∀ t : Token, t.kind ∈ kinds → Follows s false 0 ψ (f (some t)) (g (some (s.token t)))) :
    Follows s false 0 ψ (Reader.accept kinds >>= f) (Reader.accept kinds >>= g) :=
  accept hnone hsome (by simp)

theorem report {t : Token} {fault : SyntaxFault} :
    Follows s firm 0 id (report t fault) (report (s.token t) fault) :=
  fun c _ => ⟨[], .report c t fault, Nat.le_refl _, fun _ => rfl⟩

theorem reportHere {fault : SyntaxFault} :
    Follows s false 0 id (reportHere fault) (reportHere fault) := by
  have hhere : Follows s false 0 id (Reader.here >>= fun t => Reader.report t fault)
      (Reader.here >>= fun t => Reader.report t fault) := here fun _ => report
  exact hhere

theorem missing {what : Expected} : Follows s firm k φ (missing what) (missing what) := by
  intro c _
  have adv : c.Advance [] (c.report c.here (.missing what)) := .report c c.here _
  refine ⟨[], adv, Nat.lt_succ_self _, fun hends => ?_⟩
  have hhere : (c.within s).here = s.token c.here := (hends.back adv (by simp)).here
  show EStateM.Result.error ReadStop.syntaxError
    ((c.within s).report (c.within s).here (.missing what)) = _
  rw [hhere, report_within]

theorem expect {kind : TokenKind} {what : Expected} :
    Follows s firm 1 s.token (expect kind what) (expect kind what) := by
  unfold Reader.expect
  exact accept missing (fun t _ => pure rfl) (by simp)

theorem reference {name : Token} :
    Follows s firm 0 s.reference (reference name) (reference (s.token name)) := by
  intro c _
  refine ⟨[], ⟨rfl, rfl, Nat.le_refl _⟩, Nat.le_refl _, fun _ => ?_⟩
  have hnext : s.number c.nextId + 1 = s.number (c.nextId + 1) := Nat.add_right_comm _ _ _
  show EStateM.Result.ok (⟨s.number c.nextId, s.token name⟩ : Reference)
    { c.within s with nextId := s.number c.nextId + 1 } = _
  rw [hnext]
  rfl

end Follows

section Recovery

theorem dropToResumption_append (following : List Token) {dropped : Token} {rest : List Token}
    (h : dropToResumption dropped rest ≠ [] ∨ following = []) :
    dropToResumption (s.token dropped) (rest.map s.token ++ following) =
      (dropToResumption dropped rest).map s.token ++ following := by
  induction rest generalizing dropped with
  | nil =>
    rcases h with h | h
    · exact absurd rfl h
    · rw [h]
      rfl
  | cons t rest ih =>
    by_cases hstop : dropped.kind = .semicolon ∨ t.kind ∈ resumptionKinds
    · simp [dropToResumption, hstop]
    · have hdrop : dropToResumption dropped (t :: rest) = dropToResumption t rest := if_neg hstop
      rw [hdrop] at h ⊢
      rw [← ih h, List.map_cons, List.cons_append]
      exact if_neg hstop

theorem resume_within {c : Cursor} (h : s.Ends false c.resume) :
    (c.within s).resume = c.resume.within s := by
  obtain ⟨rest, last, nextId, log⟩ := c
  cases rest with
  | nil =>
    have hclosed := h.closed rfl
    simp [Cursor.resume, Cursor.within, hclosed.1]
  | cons t rest =>
    have hrest : dropToResumption t rest ≠ [] ∨ s.following = [] := by
      rcases h with h | h | h
      · exact .inl h
      · exact .inr h.1
      · exact absurd h.1 (by decide)
    simp [Cursor.resume, Cursor.within, dropToResumption_append s.following hrest]

theorem Follows.recovering {φ : α → α'} {p : Reader α} {q : Reader α'}
    (h : Follows s firm k φ p q) :
    Follows s false 0 (Option.map φ) (recovering p) (recovering q) := by
  intro c hs
  have hc := h c hs
  unfold Reader.recovering
  cases hpc : p c with
  | ok a d =>
    rw [hpc] at hc
    obtain ⟨taken, adv, _, hq⟩ := hc
    refine ⟨taken, adv, Nat.zero_le _, fun hd => ?_⟩
    rw [hq hd.loose]
    rfl
  | error stop d =>
    rw [hpc] at hc
    cases stop with
    | outOfFuel => trivial
    | syntaxError =>
      obtain ⟨taken, adv, _, hq⟩ := hc
      obtain ⟨dropped, adv', _⟩ := advance_resume d
      refine ⟨taken ++ dropped, adv.trans adv', Nat.zero_le _, fun hd => ?_⟩
      rw [hq (hd.back adv' (by simp))]
      simp only
      rw [resume_within hd]
      rfl

end Recovery

end Reader

end Lox
