import Lox.Proofs.Outcome
import Lox.Proofs.Syntax.Soundness

/-!
Reading with an index into a vector of tokens. Every access can miss the vector here, and every index
that is used is kept. The elementary readers of the grammar are walks of this kind: none of their
accesses misses, and none is past the first end mark.
-/

namespace Lox

/-- Why a walk over a vector of tokens ends without a result. -/
inductive TapeStop where
  | syntaxError
  | outOfFuel
  /-- There is no token at the index. -/
  | outside

/-- A vector of tokens and an index into it. `visited` are the indices at which tokens were read and
those to which the index was moved, the latest first. -/
structure Tape where
  tokens : Array Token
  current : Nat
  nextId : NodeId
  log : List Diagnostic
  visited : List Nat

namespace Tape

/-- Tokens that do not end with an end mark get one, on the line of the last of them. -/
def close (tokens : List Token) : Array Token :=
  let line := (tokens.getLast?.map Token.line).getD 1
  if tokens.getLast?.map Token.kind = some .eof then tokens.toArray
  else (tokens ++ [Token.synthetic .eof "" line]).toArray

def start (tokens : List Token) (nextId : NodeId) : Tape := ⟨close tokens, 0, nextId, [], []⟩

end Tape

abbrev Walker (α : Type) := EStateM TapeStop Tape α

namespace Walker

variable {α : Type}

def get (i : Nat) : Walker Token := fun t =>
  match t.tokens[i]? with
  | some token => .ok token { t with visited := i :: t.visited }
  | none => .error .outside t

def peek : Walker Token := fun t => get t.current t

/-- At the very beginning this is the next token itself. -/
def previous : Walker Token := fun t => get (t.current - 1) t

def atEnd : Walker Bool := do return (← peek).kind == .eof

def check (kind : TokenKind) : Walker Bool := do
  if ← atEnd then pure false else return (← peek).kind == kind

/-- The token after the next one need not be there. -/
def checkNext (kind : TokenKind) : Walker Bool := fun t =>
  match t.tokens[t.current + 1]? with
  | some token => .ok (token.kind == kind) { t with visited := (t.current + 1) :: t.visited }
  | none => .ok false t

def move : Walker Unit := fun t =>
  .ok () { t with current := t.current + 1, visited := (t.current + 1) :: t.visited }

def advance : Walker Token := do
  if ← atEnd then previous
  else
    move
    previous

def accept : List TokenKind → Walker (Option Token)
  | [] => pure none
  | kind :: kinds => do if ← check kind then some <$> advance else accept kinds

def ended : List TokenKind → Walker Bool
  | [] => atEnd
  | kind :: kinds => do if ← check kind then pure true else ended kinds

def seesNamedFunction : Walker Bool := do
  if ← check .fun then checkNext .identifier else pure false

def report (token : Token) (fault : SyntaxFault) : Walker Unit := fun t =>
  .ok () { t with log := .atToken token (.syntactic fault) :: t.log }

def reference (name : Token) : Walker Reference := fun t =>
  .ok ⟨t.nextId, name⟩ { t with nextId := t.nextId + 1 }

/-- Drops tokens up to a likely start of a declaration. -/
def skip : Nat → Walker Unit
  | 0 => throw .outOfFuel
  | n + 1 => do
    if ← atEnd then pure ()
    else if (← previous).kind = .semicolon then pure ()
    else if (← peek).kind ∈ resumptionKinds then pure ()
    else
      let _ ← advance
      skip n

def synchronize : Walker Unit := do
  let _ ← advance
  let t ← EStateM.get
  skip t.tokens.size

def recovering (walk : Walker α) : Walker (Option α) := fun t =>
  match walk t with
  | .ok a t => .ok (some a) t
  | .error .syntaxError t => (do synchronize; pure none : Walker (Option α)) t
  | .error stop t => .error stop t

end Walker

/-- The tape stands where the cursor stands, and nothing past the first end mark has been looked at. -/
structure Tape.Shows (tokens : Array Token) (first : Nat) (t : Tape) (c : Cursor) : Prop where
  vector : t.tokens = tokens
  ahead : ∀ i ≤ c.rest.length, tokens[t.current + i]? = (c.rest ++ [c.last])[i]?
  words : ∀ w ∈ c.rest, w.kind ≠ .eof
  mark : c.last.kind = .eof
  place : t.current + c.rest.length = first
  nextId : t.nextId = c.nextId
  log : t.log = c.log
  visited : ∀ i ∈ t.visited, i ≤ first

namespace Tape.Shows

variable {tokens : Array Token} {first i : Nat} {t : Tape} {c : Cursor} {w : Token}
  {rest : List Token}

theorem next (h : t.Shows tokens first c) : tokens[t.current]? = some c.here := by
  have hahead := h.ahead 0 (Nat.zero_le _)
  rw [Nat.add_zero] at hahead
  rw [hahead]
  unfold Cursor.here
  cases c.rest <;> rfl

theorem here_kind (h : t.Shows tokens first c) : c.here.kind = .eof ↔ c.rest = [] := by
  unfold Cursor.here
  cases hr : c.rest with
  | nil => simp [h.mark]
  | cons w rest =>
    have hw : w.kind ≠ .eof := h.words w (by simp [hr])
    simpa using hw

theorem size (h : t.Shows tokens first c) : first < tokens.size := by
  have hahead := h.ahead c.rest.length (Nat.le_refl _)
  rw [h.place] at hahead
  apply Nat.lt_of_not_le
  intro hsize
  rw [Array.getElem?_eq_none hsize] at hahead
  simp at hahead

theorem visit (h : t.Shows tokens first c) (hi : i ≤ first) :
    Shows tokens first { t with visited := i :: t.visited } c := by
  refine ⟨h.vector, h.ahead, h.words, h.mark, h.place, h.nextId, h.log, fun j hj => ?_⟩
  rcases List.mem_cons.1 hj with rfl | hj
  · exact hi
  · exact h.visited j hj

theorem move (h : t.Shows tokens first c) (hr : c.rest = w :: rest) :
    Shows tokens first { t with current := t.current + 1, visited := (t.current + 1) :: t.visited }
      { c with rest } := by
  have hfirst := h.place
  rw [hr, List.length_cons] at hfirst
  refine ⟨h.vector, fun i hi => ?_, fun u hu => h.words u (by simp [hr, hu]), h.mark, ?_, h.nextId,
    h.log, ?_⟩
  · have hahead := h.ahead (i + 1) (by rw [hr, List.length_cons]; exact Nat.succ_le_succ hi)
    rw [hr, List.cons_append, List.getElem?_cons_succ] at hahead
    rw [← hahead, ← Nat.add_assoc, Nat.add_right_comm]
  · show t.current + 1 + rest.length = first
    omega
  · exact (h.visit (i := t.current + 1) (by omega)).visited

end Tape.Shows

namespace Walker

open Tape

variable {α β : Type} {tokens : Array Token} {first : Nat} {t : Tape} {c : Cursor}

/-- The walk gives what the reader gives, and stops where it stops. -/
def Agrees (tokens : Array Token) (first : Nat) (walked : EStateM.Result TapeStop Tape α)
    (read : EStateM.Result ReadStop Cursor α) : Prop :=
  match read with
  | .ok a c => ∃ t, walked = .ok a t ∧ t.Shows tokens first c
  | .error .syntaxError c => ∃ t, walked = .error .syntaxError t ∧ t.Shows tokens first c
  | .error .outOfFuel c => ∃ t, walked = .error .outOfFuel t ∧ t.Shows tokens first c

/-- From every place of the text the walk does what the reader does. -/
def Simulates (tokens : Array Token) (first : Nat) (walk : Walker α) (p : Reader α) : Prop :=
  ∀ t c, t.Shows tokens first c → Agrees tokens first (walk t) (p c)

namespace Simulates

variable {walk : Walker α} {p : Reader α}

theorem pure {a : α} : Simulates tokens first (pure a) (pure a) := fun t _ h => ⟨t, rfl, h⟩

theorem congr {q : Reader α} (h : Simulates tokens first walk p)
    (hpq : ∀ (t : Tape) c, t.Shows tokens first c → q c = p c) : Simulates tokens first walk q := by
  intro t c hs
  rw [hpq t c hs]
  exact h t c hs

theorem bind {f : α → Walker β} {g : α → Reader β} (h : Simulates tokens first walk p)
    (hf : ∀ a, Simulates tokens first (f a) (g a)) :
    Simulates tokens first (walk >>= f) (p >>= g) := by
  intro t c hs
  have hp := h t c hs
  cases hpc : p c with
  | ok a d =>
    rw [hpc] at hp
    obtain ⟨u, hu, hs'⟩ := hp
    rw [bind_of_ok hpc, bind_of_ok hu]
    exact hf a u d hs'
  | error stop d =>
    rw [hpc] at hp
    rw [bind_of_error hpc]
    cases stop with
    | syntaxError =>
      obtain ⟨u, hu, hs'⟩ := hp
      exact ⟨u, bind_of_error hu, hs'⟩
    | outOfFuel =>
      obtain ⟨u, hu, hs'⟩ := hp
      exact ⟨u, bind_of_error hu, hs'⟩

theorem peek : Simulates tokens first peek Reader.here := by
  intro t c h
  have hnext : t.tokens[t.current]? = some c.here := h.vector ▸ h.next
  refine ⟨{ t with visited := t.current :: t.visited }, ?_, h.visit (by have := h.place; omega)⟩
  show get t.current t = _
  rw [get, hnext]

theorem atEnd : Simulates tokens first atEnd fun c => .ok c.rest.isEmpty c := by
  refine (peek.bind (g := fun t => Pure.pure (t.kind == .eof)) fun _ => pure).congr fun t c h => ?_
  have hkind : (c.here.kind == .eof) = c.rest.isEmpty := by
    rw [Bool.eq_iff_iff, beq_iff_eq, h.here_kind, List.isEmpty_iff]
  show EStateM.Result.ok c.rest.isEmpty c = .ok (c.here.kind == .eof) c
  rw [hkind]

theorem check (kind : TokenKind) : Simulates tokens first (check kind) (Reader.sees kind) := by
  have hcheck : Simulates tokens first (Walker.check kind)
      ((fun c => .ok c.rest.isEmpty c : Reader Bool) >>= fun b =>
        if b then Pure.pure false else Reader.here >>= fun t => Pure.pure (t.kind == kind)) := by
    refine atEnd.bind fun b => ?_
    cases b with
    | true => exact pure
    | false => exact peek.bind fun _ => pure
  refine hcheck.congr fun t c h => ?_
  obtain ⟨rest, last, nextId, log⟩ := c
  cases rest <;> rfl

end Simulates

theorem previous_of (h : t.Shows tokens first c) {w : Token}
    (hw : tokens[t.current - 1]? = some w) :
    ∃ u, previous t = .ok w u ∧ u.Shows tokens first c ∧ u.current = t.current := by
  have hget : t.tokens[t.current - 1]? = some w := h.vector ▸ hw
  refine ⟨{ t with visited := (t.current - 1) :: t.visited }, ?_,
    h.visit (by have := h.place; omega), rfl⟩
  show get (t.current - 1) t = _
  rw [get, hget]

theorem atEnd_of (h : t.Shows tokens first c) :
    ∃ u, atEnd t = .ok c.rest.isEmpty u ∧ u.Shows tokens first c ∧ u.current = t.current := by
  have hnext : t.tokens[t.current]? = some c.here := h.vector ▸ h.next
  have hkind : (c.here.kind == .eof) = c.rest.isEmpty := by
    rw [Bool.eq_iff_iff, beq_iff_eq, h.here_kind, List.isEmpty_iff]
  refine ⟨{ t with visited := t.current :: t.visited }, ?_, h.visit (by have := h.place; omega), rfl⟩
  have hpeek : Walker.peek t = .ok c.here { t with visited := t.current :: t.visited } := by
    show get t.current t = _
    rw [get, hnext]
  show (Walker.peek >>= fun w => Pure.pure (w.kind == .eof)) t = _
  rw [bind_of_ok hpeek, hkind]
  rfl

theorem advance_of {w : Token} {rest : List Token} (h : t.Shows tokens first c)
    (hr : c.rest = w :: rest) :
    ∃ u, advance t = .ok w u ∧ u.Shows tokens first { c with rest } ∧
      tokens[u.current - 1]? = some w := by
  obtain ⟨u, hu, hs, hcurrent⟩ := atEnd_of h
  have hmoved := hs.move hr
  have hlast : tokens[(u.current + 1) - 1]? = some w := by
    rw [Nat.add_sub_cancel, hs.next]
    simp [Cursor.here, hr]
  obtain ⟨v, hv, hs', hcurrent'⟩ := previous_of hmoved hlast
  refine ⟨v, ?_, hs', by rw [hcurrent']; exact hlast⟩
  have hend : c.rest.isEmpty = false := by simp [hr]
  unfold advance
  rw [bind_of_ok hu, hend]
  exact hv

/-- The end mark is never left behind. -/
theorem advance_end (h : t.Shows tokens first c) (hr : c.rest = []) :
    ∃ w u, advance t = .ok w u ∧ u.Shows tokens first c := by
  obtain ⟨u, hu, hs, hcurrent⟩ := atEnd_of h
  have hfirst := hs.place
  have hsize := hs.size
  obtain ⟨w, hw⟩ : ∃ w, tokens[u.current - 1]? = some w :=
    ⟨tokens[u.current - 1], Array.getElem?_eq_getElem (by omega)⟩
  obtain ⟨v, hv, hs', _⟩ := previous_of hs hw
  refine ⟨w, v, ?_, hs'⟩
  have hend : c.rest.isEmpty = true := by simp [hr]
  unfold advance
  rw [bind_of_ok hu, hend]
  exact hv

namespace Simulates

theorem accept (kinds : List TokenKind) :
    Simulates tokens first (accept kinds) (Reader.accept kinds) := by
  induction kinds with
  | nil =>
    refine pure.congr fun t c h => ?_
    obtain ⟨rest, last, nextId, log⟩ := c
    cases rest <;> rfl
  | cons kind kinds ih =>
    intro t c h
    obtain ⟨u, hu, hs⟩ : ∃ u, Walker.check kind t = .ok (c.rest.head?.any (·.kind == kind)) u ∧
        u.Shows tokens first c := check kind t c h
    unfold Walker.accept
    rw [bind_of_ok hu]
    cases hr : c.rest with
    | nil =>
      have hread : Reader.accept (kind :: kinds) c = Reader.accept kinds c := by
        simp only [Reader.accept, hr]
      rw [hread]
      exact ih u c hs
    | cons w rest =>
      by_cases hw : w.kind = kind
      · obtain ⟨v, hv, hs', _⟩ := advance_of hs hr
        have hread : Reader.accept (kind :: kinds) c = .ok (some w) { c with rest } := by
          simp only [Reader.accept, hr, if_pos (List.mem_cons.2 (.inl hw))]
        have htest : (w :: rest).head?.any (·.kind == kind) = true := by simp [hw]
        rw [hread, htest]
        refine ⟨v, ?_, hs'⟩
        show EStateM.map some Walker.advance u = _
        rw [EStateM.map, hv]
      · have hread : Reader.accept (kind :: kinds) c = Reader.accept kinds c := by
          simp only [Reader.accept, hr, List.mem_cons, hw, false_or]
        have htest : (w :: rest).head?.any (·.kind == kind) = false := by simp [hw]
        rw [hread, htest]
        exact ih u c hs

theorem ended (closers : List TokenKind) :
    Simulates tokens first (ended closers) (Reader.ended closers) := by
  induction closers with
  | nil =>
    refine atEnd.congr fun t c h => ?_
    obtain ⟨rest, last, nextId, log⟩ := c
    cases rest <;> rfl
  | cons kind kinds ih =>
    have hended : Simulates tokens first (Walker.ended (kind :: kinds))
        (Reader.sees kind >>= fun b => if b then Pure.pure true else Reader.ended kinds) := by
      refine (check kind).bind fun b => ?_
      cases b with
      | true => exact pure
      | false => exact ih
    refine hended.congr fun t c h => ?_
    obtain ⟨rest, last, nextId, log⟩ := c
    cases rest with
    | nil => rfl
    | cons w rest =>
      have hread (kinds : List TokenKind) :
          Reader.ended kinds ⟨w :: rest, last, nextId, log⟩ =
            .ok (decide (w.kind ∈ kinds)) ⟨w :: rest, last, nextId, log⟩ := rfl
      have hsees : Reader.sees kind ⟨w :: rest, last, nextId, log⟩ =
          .ok (w.kind == kind) ⟨w :: rest, last, nextId, log⟩ := rfl
      rw [bind_of_ok hsees, hread]
      by_cases hw : w.kind = kind
      · simp [hw, Pure.pure, EStateM.pure]
      · have hk : (w.kind == kind) = false := by simpa using hw
        simp [hw, hk, hread]

theorem seesNamedFunction :
    Simulates tokens first seesNamedFunction Reader.seesNamedFunction := by
  intro t c h
  obtain ⟨u, hu, hs⟩ : ∃ u, Walker.check .fun t = .ok (c.rest.head?.any (·.kind == .fun)) u ∧
      u.Shows tokens first c := check .fun t c h
  unfold Walker.seesNamedFunction
  rw [bind_of_ok hu]
  obtain ⟨rest, last, nextId, log⟩ := c
  match rest with
  | [] => exact ⟨u, rfl, hs⟩
  | [w] =>
    by_cases hw : w.kind = .fun
    · -- After a last `fun` there is the end mark.
      have hnext : u.tokens[u.current + 1]? = some last := by
        rw [hs.vector]
        exact hs.ahead 1 (Nat.le_refl 1)
      have hkind : (last.kind == .identifier) = false := by
        rw [show last.kind = .eof from hs.mark]
        rfl
      have htest : [w].head?.any (·.kind == .fun) = true := by simp [hw]
      rw [htest]
      refine ⟨_, ?_, hs.visit (i := u.current + 1) (by rw [← hs.place]; exact Nat.le_refl _)⟩
      show Walker.checkNext .identifier u = _
      rw [Walker.checkNext, hnext]
      simp only [hkind]
    · have htest : [w].head?.any (·.kind == .fun) = false := by simpa using hw
      rw [htest]
      exact ⟨u, rfl, hs⟩
  | w :: w' :: rest =>
    by_cases hw : w.kind = .fun
    · have hnext : u.tokens[u.current + 1]? = some w' := by
        rw [hs.vector]
        exact hs.ahead 1 (by simp)
      have htest : (w :: w' :: rest).head?.any (·.kind == .fun) = true := by simp [hw]
      have hread : Reader.seesNamedFunction ⟨w :: w' :: rest, last, nextId, log⟩ =
          .ok (w'.kind == .identifier) ⟨w :: w' :: rest, last, nextId, log⟩ := by
        simp [Reader.seesNamedFunction, hw]
      have hbound : u.current + 1 ≤ first := by
        rw [← hs.place]
        simp only [List.length_cons]
        omega
      rw [htest, hread]
      refine ⟨_, ?_, hs.visit hbound⟩
      show Walker.checkNext .identifier u = _
      rw [Walker.checkNext, hnext]
    · have htest : (w :: w' :: rest).head?.any (·.kind == .fun) = false := by simpa using hw
      have hread : Reader.seesNamedFunction ⟨w :: w' :: rest, last, nextId, log⟩ =
          .ok false ⟨w :: w' :: rest, last, nextId, log⟩ := by
        simp [Reader.seesNamedFunction, hw]
      rw [htest, hread]
      exact ⟨u, rfl, hs⟩

theorem report (w : Token) (fault : SyntaxFault) :
    Simulates tokens first (report w fault) (Reader.report w fault) := by
  intro t c h
  refine ⟨_, rfl, ⟨h.vector, h.ahead, h.words, h.mark, h.place, h.nextId, ?_, h.visited⟩⟩
  exact congrArg _ h.log

theorem reference (name : Token) :
    Simulates tokens first (reference name) (Reader.reference name) := by
  intro t c h
  have hid : (⟨t.nextId, name⟩ : Reference) = ⟨c.nextId, name⟩ := by rw [h.nextId]
  refine ⟨{ t with nextId := t.nextId + 1 }, ?_,
    ⟨h.vector, h.ahead, h.words, h.mark, h.place, ?_, h.log, h.visited⟩⟩
  · show EStateM.Result.ok (⟨t.nextId, name⟩ : Reference) _ = _
    rw [hid]
  · exact congrArg (· + 1) h.nextId

end Simulates

section Recovery

/-- The walk looks back at the token dropped last. -/
theorem skip_of {n : Nat} {dropped : Token} (h : t.Shows tokens first c)
    (hdropped : tokens[t.current - 1]? = some dropped) (hn : c.rest.length < n) :
    ∃ u, skip n t = .ok () u ∧
      u.Shows tokens first { c with rest := dropToResumption dropped c.rest } := by
  induction n generalizing t c dropped with
  | zero => omega
  | succ n ih =>
    obtain ⟨u, hu, hs, hcurrent⟩ := atEnd_of h
    unfold skip
    rw [bind_of_ok hu]
    cases hr : c.rest with
    | nil =>
      refine ⟨u, rfl, ?_⟩
      have hsame : { c with rest := dropToResumption dropped [] } = c := by
        rw [dropToResumption, ← hr]
      rwa [hsame]
    | cons w rest =>
      obtain ⟨v, hv, hs', hcurrent'⟩ := previous_of hs (by rw [hcurrent]; exact hdropped)
      show ∃ u', (Walker.previous >>= _) u = _ ∧ _
      rw [bind_of_ok hv]
      have hstay (hstop : dropped.kind = .semicolon ∨ w.kind ∈ resumptionKinds) :
          { c with rest := dropToResumption dropped (w :: rest) } = c := by
        rw [dropToResumption, if_pos hstop, ← hr]
      by_cases hsemicolon : dropped.kind = .semicolon
      · rw [if_pos hsemicolon, hstay (.inl hsemicolon)]
        exact ⟨v, rfl, hs'⟩
      · obtain ⟨x, hx, hs''⟩ := Simulates.peek v c hs'
        have hhere : c.here = w := by simp [Cursor.here, hr]
        rw [hhere] at hx
        rw [if_neg hsemicolon, bind_of_ok hx]
        by_cases hkind : w.kind ∈ resumptionKinds
        · rw [if_pos hkind, hstay (.inr hkind)]
          exact ⟨x, rfl, hs''⟩
        · obtain ⟨y, hy, hs₃, hlast⟩ := advance_of hs'' hr
          have hgo : dropToResumption dropped (w :: rest) = dropToResumption w rest :=
            if_neg (by simp [hsemicolon, hkind])
          rw [if_neg hkind, bind_of_ok hy, hgo]
          refine ih hs₃ hlast ?_
          rw [hr, List.length_cons] at hn
          exact Nat.lt_of_succ_lt_succ hn

theorem synchronize_of (h : t.Shows tokens first c) :
    ∃ u, synchronize t = .ok () u ∧ u.Shows tokens first c.resume := by
  unfold synchronize
  cases hr : c.rest with
  | nil =>
    obtain ⟨w, u, hu, hs⟩ := advance_end h hr
    have hsize := hs.size
    have hfirst := hs.place
    obtain ⟨dropped, hdropped⟩ : ∃ w, tokens[u.current - 1]? = some w :=
      ⟨tokens[u.current - 1], Array.getElem?_eq_getElem (by omega)⟩
    obtain ⟨v, hv, hs'⟩ := skip_of (n := u.tokens.size) hs hdropped (by
      rw [hs.vector]
      omega)
    refine ⟨v, ?_, ?_⟩
    · rw [bind_of_ok hu]
      exact hv
    · have hresume : c.resume = { c with rest := dropToResumption dropped c.rest } := by
        obtain ⟨rest, last, nextId, log⟩ := c
        obtain rfl : rest = [] := hr
        rfl
      rwa [hresume]
  | cons w rest =>
    obtain ⟨u, hu, hs, hlast⟩ := advance_of h hr
    have hsize := hs.size
    have hfirst := hs.place
    obtain ⟨v, hv, hs'⟩ := skip_of (n := u.tokens.size) hs hlast (by
      rw [hs.vector]
      omega)
    refine ⟨v, ?_, ?_⟩
    · rw [bind_of_ok hu]
      exact hv
    · have hresume : c.resume = { c with rest := dropToResumption w rest } := by
        simp [Cursor.resume, hr]
      rw [hresume]
      exact hs'

theorem Simulates.recovering {walk : Walker α} {p : Reader α}
    (h : Simulates tokens first walk p) :
    Simulates tokens first (recovering walk) (Reader.recovering p) := by
  intro t c hs
  have hp := h t c hs
  unfold Walker.recovering Reader.recovering
  cases hpc : p c with
  | ok a d =>
    rw [hpc] at hp
    obtain ⟨u, hu, hs'⟩ := hp
    rw [hu]
    exact ⟨u, rfl, hs'⟩
  | error stop d =>
    rw [hpc] at hp
    cases stop with
    | outOfFuel =>
      obtain ⟨u, hu, hs'⟩ := hp
      rw [hu]
      exact ⟨u, rfl, hs'⟩
    | syntaxError =>
      obtain ⟨u, hu, hs'⟩ := hp
      obtain ⟨v, hv, hs''⟩ := synchronize_of hs'
      rw [hu]
      refine ⟨v, ?_, hs''⟩
      show (synchronize >>= fun _ => Pure.pure none) u = _
      rw [bind_of_ok hv]
      rfl

end Recovery

end Walker

end Lox
