import Lox.Proofs.Renaming.Matching
import Lox.Proofs.Scope.Moving
import Lox.Proofs.Scope.Resolving
import Mathlib.Logic.Equiv.Basic

/-!
Name resolution with another name for a variable. In some scopes the two names change places, and the
new one is in no scope before. The resolver finds the same hops and reports nothing new.
-/

namespace Lox

/-- A name and another one that takes its place. -/
structure Renaming where
  old : String
  new : String
  oldName : old ≠ "this" ∧ old ≠ "super"
  newName : new ≠ "this" ∧ new ≠ "super"

namespace Renaming

variable (ρ : Renaming) (m : Bool) (x : String)

/-- What a name is called in a scope with the mark. -/
def key : Equiv.Perm String := if m then Equiv.swap ρ.old ρ.new else Equiv.refl String

@[simp] theorem key_key : ρ.key m (ρ.key m x) = x := by
  cases m with
  | false => rfl
  | true => exact Equiv.swap_apply_self ρ.old ρ.new x

@[simp] theorem key_false : ρ.key false x = x := rfl

variable {ρ m x}

theorem key_plain (hold : x ≠ ρ.old) (hnew : x ≠ ρ.new) : ρ.key m x = x := by
  cases m with
  | false => rfl
  | true => exact Equiv.swap_apply_of_ne_of_ne hold hnew

theorem key_this : ρ.key m "this" = "this" := key_plain ρ.oldName.1.symm ρ.newName.1.symm

theorem key_super : ρ.key m "super" = "super" := key_plain ρ.oldName.2.symm ρ.newName.2.symm

/-- A name that is changed in one scope and changed back in another one is itself or the new one. -/
theorem key_between (m' : Bool) (hnew : x ≠ ρ.new) :
    ρ.key m (ρ.key m' x) = x ∨ ρ.key m (ρ.key m' x) = ρ.new := by
  have hswap : Equiv.swap ρ.old ρ.new x = x ∨ Equiv.swap ρ.old ρ.new x = ρ.new := by
    by_cases hold : x = ρ.old
    · exact .inr (hold ▸ Equiv.swap_apply_left ρ.old ρ.new)
    · exact .inl (Equiv.swap_apply_of_ne_of_ne hold hnew)
  cases m <;> cases m'
  · exact .inl rfl
  · exact hswap
  · exact hswap
  · exact .inl (key_key ρ true x)

/-- The tokens of two texts, of which the first one does not have the new name. -/
def lexical (ρ : Renaming) (hops : NodeId → Option Nat) : Matching :=
  ⟨hops, fun m t t' => t'.lexeme = ρ.key m t.lexeme ∧ t.lexeme ≠ ρ.new⟩

end Renaming

/-- As much is known of a name. -/
structure Binding.Alike (b b' : Binding) : Prop where
  defined : b'.defined = b.defined
  used : b'.used = b.used

/-- The same scope with other names for its names. -/
structure Scope.Renamed (ρ : Renaming) (m : Bool) (s s' : Scope) : Prop where
  fresh : s[ρ.new]? = none
  entries : ∀ x : String, Option.Rel Binding.Alike s[x]? s'[ρ.key m x]?

inductive Scopes.Renamed (ρ : Renaming) : List Bool → List Scope → List Scope → Prop where
  | nil : Scopes.Renamed ρ [] [] []
  | cons {m Γ s s' ss ss'} (h : s.Renamed ρ m s') (hs : Scopes.Renamed ρ Γ ss ss') :
    Scopes.Renamed ρ (m :: Γ) (s :: ss) (s' :: ss')

/-- Two states of the resolution of a text with one name and with another. In the second one there is
nothing to report. -/
structure Resolution.Agrees (ρ : Renaming) (marks : List Bool) (r r' : Resolution) : Prop where
  scopes : Scopes.Renamed ρ marks r.scopes r'.scopes
  hops : ∀ id : NodeId, r'.hops[id]? = r.hops[id]?
  log : r'.log = []

/-- As long as nothing is reported of the one text, nothing is reported of the other one. -/
def Resolution.Renamed (ρ : Renaming) (marks : List Bool) (r r' : Resolution) : Prop :=
  r.log = [] → r.Agrees ρ marks r'

section Scopes

variable {ρ : Renaming} {m : Bool} {s s' : Scope}

theorem unused_eq_nil (s : Scope) :
    s.unused = [] ↔ ∀ (x : String) (b : Binding), s[x]? = some b → b.used = true := by
  have hsort (ts : List Token) : ts.mergeSort Token.reportedBefore = [] ↔ ts = [] := by
    rw [← List.length_eq_zero_iff, List.length_mergeSort, List.length_eq_zero_iff]
  unfold Scope.unused
  rw [hsort, List.map_eq_nil_iff, List.filter_eq_nil_iff, values_eq_toList]
  constructor
  · intro h x b hx
    have hmem := List.mem_map_of_mem (f := Prod.snd) (Std.TreeMap.mem_toList_iff_getElem?_eq_some.2 hx)
    simpa using h b hmem
  · intro h b hb
    obtain ⟨⟨x, b⟩, hmem, rfl⟩ := List.mem_map.1 hb
    simpa using h x b (Std.TreeMap.mem_toList_iff_getElem?_eq_some.1 hmem)

namespace Scope.Renamed

theorem empty : Renamed ρ m ∅ ∅ := by
  refine ⟨Std.TreeMap.getElem?_emptyc, fun x => ?_⟩
  rw [Std.TreeMap.getElem?_emptyc, Std.TreeMap.getElem?_emptyc]
  exact .none

theorem contains (h : s.Renamed ρ m s') (x : String) :
    s'.contains (ρ.key m x) = s.contains x := by
  rw [Std.TreeMap.contains_eq_isSome_getElem?, Std.TreeMap.contains_eq_isSome_getElem?]
  have hentry := h.entries x
  generalize s[x]? = b? at hentry ⊢
  generalize s'[ρ.key m x]? = b?' at hentry ⊢
  cases hentry <;> rfl

/-- A name that is not there is not there under the name that it has in another scope. -/
theorem contains_other (h : s.Renamed ρ m s') {x : String} (m' : Bool) (hnew : x ≠ ρ.new)
    (hx : s.contains x = false) : s'.contains (ρ.key m' x) = false := by
  have hcontains := h.contains (ρ.key m (ρ.key m' x))
  rw [Renaming.key_key] at hcontains
  rw [hcontains]
  rcases Renaming.key_between (m := m) m' hnew with heq | heq
  · rw [heq, hx]
  · rw [heq, Std.TreeMap.contains_eq_isSome_getElem?, h.fresh]
    rfl

theorem insert (h : s.Renamed ρ m s') {x : String} (hnew : x ≠ ρ.new) {b b' : Binding}
    (hb : b.Alike b') : Renamed ρ m (s.insert x b) (s'.insert (ρ.key m x) b') := by
  constructor
  · rw [Std.TreeMap.getElem?_insert, if_neg (by simpa using hnew)]
    exact h.fresh
  · intro y
    rw [Std.TreeMap.getElem?_insert, Std.TreeMap.getElem?_insert]
    by_cases hy : x = y
    · rw [if_pos (by simpa using hy), if_pos (by simp [hy])]
      exact .some hb
    · rw [if_neg (by simpa using hy), if_neg (by simpa using hy)]
      exact h.entries y

theorem modify (h : s.Renamed ρ m s') (x : String) {f : Binding → Binding}
    (hf : ∀ b b', b.Alike b' → (f b).Alike (f b')) :
    Renamed ρ m (s.modify x f) (s'.modify (ρ.key m x) f) := by
  have hmap {b? b?' : Option Binding} (hb : Option.Rel Binding.Alike b? b?') :
      Option.Rel Binding.Alike (b?.map f) (b?'.map f) := by
    cases hb with
    | none => exact .none
    | some hb => exact .some (hf _ _ hb)
  constructor
  · rw [Std.TreeMap.getElem?_modify]
    split
    next hx => rw [show x = ρ.new by simpa using hx, h.fresh]; rfl
    next => exact h.fresh
  · intro y
    rw [Std.TreeMap.getElem?_modify, Std.TreeMap.getElem?_modify]
    by_cases hy : x = y
    · rw [if_pos (by simpa using hy), if_pos (by simp [hy])]
      exact hmap (h.entries x)
    · rw [if_neg (by simpa using hy), if_neg (by simpa using hy)]
      exact h.entries y

theorem unused (h : s.Renamed ρ m s') (hs : s.unused = []) : s'.unused = [] := by
  rw [unused_eq_nil] at hs ⊢
  intro x b' hx
  have hentry := h.entries (ρ.key m x)
  rw [Renaming.key_key, hx] at hentry
  generalize hb : s[ρ.key m x]? = b? at hentry
  cases hentry with
  | some halike => rw [halike.used, hs _ _ hb]

end Scope.Renamed

namespace Scopes.Renamed

variable {Γ : List Bool} {ss ss' : List Scope} {x : String}

/-- A name is found in the same scope, under the name that it has there. -/
theorem findIdx? (h : Scopes.Renamed ρ Γ ss ss') (hnew : x ≠ ρ.new) {depth : Option Nat}
    (hd : ss.findIdx? (·.contains x) = depth) :
    ss'.findIdx? (·.contains (ρ.key ((depth.bind (Γ[·]?)).getD false) x)) = depth := by
  induction h generalizing depth with
  | nil => exact hd
  | @cons m Γ s s' ss ss' hs _ ih =>
    rw [List.findIdx?_cons] at hd ⊢
    by_cases hx : s.contains x = true
    · rw [if_pos hx] at hd
      subst hd
      rw [if_pos]
      exact (hs.contains x).trans hx
    · rw [if_neg hx] at hd
      have hmark : (depth.bind ((m :: Γ)[·]?)).getD false =
          ((ss.findIdx? (·.contains x)).bind (Γ[·]?)).getD false := by
        rw [← hd]
        cases ss.findIdx? (·.contains x) <;> rfl
      rw [hmark, if_neg (by rw [hs.contains_other _ hnew (Bool.eq_false_iff.2 hx)]; simp), ih rfl, hd]

theorem modify (h : Scopes.Renamed ρ Γ ss ss') (x : String) {f : Binding → Binding}
    (hf : ∀ b b', b.Alike b' → (f b).Alike (f b')) (depth : Nat) :
    Scopes.Renamed ρ Γ (ss.modify depth (·.modify x f))
      (ss'.modify depth (·.modify (ρ.key ((Γ[depth]?).getD false) x) f)) := by
  induction h generalizing depth with
  | nil =>
    rw [List.modify_nil, List.modify_nil]
    exact .nil
  | cons hs hrest ih =>
    cases depth with
    | zero => exact .cons (hs.modify x hf) hrest
    | succ depth => exact .cons hs (ih depth)

end Scopes.Renamed

end Scopes

namespace Resolution.Renamed

variable {ρ : Renaming} {hops : NodeId → Option Nat} {marks : List Bool} {Γ : Layers}
  {r r' : Resolution}

theorem report (t : Token) (fault : ScopeFault) : Renamed ρ marks (r.report t fault) r' :=
  fun hlog => absurd hlog (log_report _ _)

theorem openScope (h : Renamed ρ marks r r') (m : Bool) :
    Renamed ρ (m :: marks) r.openScope r'.openScope := fun hlog =>
  let ⟨hscopes, hhops, hlog'⟩ := h hlog
  ⟨.cons .empty hscopes, hhops, hlog'⟩

theorem log_closeScope {s : Scope} {rest : List Scope} (hs : r.scopes = s :: rest) :
    r.closeScope.log = [] ↔ s.unused = [] ∧ r.log = [] := by
  have hfold (ts : List Token) (r : Resolution) :
      (ts.foldl (fun r t => r.report t (.neverUsed t.lexeme)) r).log = [] ↔
        ts = [] ∧ r.log = [] := by
    induction ts generalizing r with
    | nil => simp
    | cons t ts ih =>
      rw [List.foldl_cons, ih]
      exact ⟨fun h => absurd h.2 (log_report _ _), fun h => absurd h.1 (List.cons_ne_nil _ _)⟩
  unfold Resolution.closeScope
  rw [hs]
  exact hfold _ _

theorem closeScope {m : Bool} (h : Renamed ρ (m :: marks) r r') :
    Renamed ρ marks r.closeScope r'.closeScope := by
  intro hlog
  obtain ⟨hscopes, hhops, hkept⟩ := closeScope_eq (r := r)
  obtain ⟨hscopes', hhops', _⟩ := closeScope_eq (r := r')
  obtain ⟨hall, hsame, hlog'⟩ := h (hkept hlog)
  generalize hr : r.scopes = ss at hall
  generalize hr' : r'.scopes = ss' at hall
  cases hall with
  | cons hs hrest =>
    refine ⟨?_, fun id => by rw [hhops, hhops', hsame], ?_⟩
    · rw [hscopes, hscopes', hr, hr']
      exact hrest
    · rw [log_closeScope hr] at hlog
      rw [log_closeScope hr']
      exact ⟨hs.unused hlog.1, hlog'⟩

/-- The innermost scope, if there is one, changes on both sides. -/
theorem modifyInnermost (h : Renamed ρ marks r r') (x : String) {f : Binding → Binding}
    (hf : ∀ b b', b.Alike b' → (f b).Alike (f b')) :
    Renamed ρ marks (r.modifyInnermost x f)
      (r'.modifyInnermost (ρ.key (marks.headD false) x) f) := by
  intro hlog
  have hagrees := h ((modifyInnermost_eq x f).2.log hlog)
  have hall := hagrees.scopes
  unfold Resolution.modifyInnermost
  generalize hr : r.scopes = ss at hall
  generalize hr' : r'.scopes = ss' at hall
  cases hall with
  | nil => exact hagrees
  | cons hs hrest => exact ⟨.cons (hs.modify x hf) hrest, hagrees.hops, hagrees.log⟩

section Names

variable {name name' : Token}
  (hn : (ρ.lexical hops).token (marks.headD false) name name')
include hn

theorem declare (h : Renamed ρ marks r r') :
    Renamed ρ marks (r.declare name) (r'.declare name') := by
  intro hlog
  obtain ⟨hlexeme, hnew⟩ := hn
  have hagrees := h ((walk_declare name).log hlog)
  have hall := hagrees.scopes
  unfold Resolution.declare at hlog ⊢
  generalize hr : r.scopes = ss at hall hlog
  generalize hr' : r'.scopes = ss' at hall
  cases hall with
  | nil => exact hagrees
  | @cons m _ s s' ss ss' hs hrest =>
    have hcontains : s'.contains (ρ.key m name.lexeme) = s.contains name.lexeme := hs.contains _
    rw [List.headD_cons] at hlexeme
    rw [hlexeme]
    simp only at hlog ⊢
    by_cases hc : s.contains name.lexeme = true
    · rw [if_pos hc] at hlog
      exact absurd hlog (log_report _ _)
    · rw [if_neg hc, if_neg (by rwa [hcontains])]
      exact ⟨.cons (hs.insert hnew ⟨rfl, rfl⟩) hrest, hagrees.hops, hagrees.log⟩

theorem define (h : Renamed ρ marks r r') : Renamed ρ marks (r.define name) (r'.define name') := by
  unfold Resolution.define
  rw [hn.1]
  exact h.modifyInnermost _ fun _ _ hb => ⟨rfl, hb.used⟩

theorem declareParameter (h : Renamed ρ marks r r') :
    Renamed ρ marks (r.declareParameter name) (r'.declareParameter name') := by
  unfold Resolution.declareParameter
  rw [hn.1]
  have hdefined := define hn (declare hn h)
  exact hdefined.modifyInnermost _ fun _ _ hb => ⟨hb.defined, rfl⟩

end Names

theorem parameters {m : Bool} {params params' : List Token}
    (hp : List.Forall₂ ((ρ.lexical hops).token m) params params')
    (h : Renamed ρ (m :: marks) r r') :
    Renamed ρ (m :: marks) (params.foldl (fun r p => r.declareParameter p) r)
      (params'.foldl (fun r p => r.declareParameter p) r') := by
  induction hp generalizing r r' with
  | nil => exact h
  | cons hname _ ih => exact ih (declareParameter hname h)

theorem bindImplicit {lexeme : String} (hkey : ∀ m, ρ.key m lexeme = lexeme) (hnew : lexeme ≠ ρ.new)
    (className className' : Token) (h : Renamed ρ marks r r') :
    Renamed ρ marks (r.bindImplicit lexeme className) (r'.bindImplicit lexeme className') := by
  intro hlog
  have hagrees := h ((walk_bindImplicit lexeme className).log hlog)
  have hall := hagrees.scopes
  unfold Resolution.bindImplicit
  generalize hr : r.scopes = ss at hall
  generalize hr' : r'.scopes = ss' at hall
  cases hall with
  | nil => exact hagrees
  | @cons m _ s s' ss ss' hs hrest =>
    have hbinding : Binding.Alike ⟨true, true, .synthetic className.kind lexeme className.line⟩
      ⟨true, true, .synthetic className'.kind lexeme className'.line⟩ := ⟨rfl, rfl⟩
    have hbound := hs.insert hnew hbinding
    rw [hkey m] at hbound
    exact ⟨.cons hbound hrest, hagrees.hops, hagrees.log⟩

section References

variable {ref ref' : Reference} (hm : ref.Matched (ρ.lexical hops) marks ref')
  (hfind : hops ref.id = Γ.find? ref.name.lexeme) (ht : Tracks r Γ)
include hm hfind ht

/-- The name leads to the same scope on both sides. -/
theorem findIdx? (h : r.Agrees ρ marks r') :
    r.scopes.findIdx? (·.contains ref.name.lexeme) = hops ref.id ∧
      r'.scopes.findIdx? (·.contains ref'.name.lexeme) = hops ref.id := by
  have hleft : r.scopes.findIdx? (·.contains ref.name.lexeme) = hops ref.id := by
    rw [hfind]
    exact Resolution.findIdx?_scopes ht _
  refine ⟨hleft, ?_⟩
  rw [show ref'.name.lexeme = _ from hm.name.1]
  exact h.scopes.findIdx? hm.name.2 hleft

theorem inOwnInitializer (h : r.Agrees ρ marks r') :
    r'.inOwnInitializer ref'.name = r.inOwnInitializer ref.name := by
  obtain ⟨hleft, _⟩ := findIdx? hm hfind ht h
  obtain ⟨hlexeme, hnew⟩ := hm.name
  have hall := h.scopes
  unfold Resolution.inOwnInitializer
  rw [hlexeme]
  unfold Matching.mark
  rw [show (ρ.lexical hops).hops ref.id = _ from hleft.symm]
  generalize hr : r.scopes = ss at hall ⊢
  generalize hr' : r'.scopes = ss' at hall ⊢
  cases hall with
  | nil => rfl
  | @cons m _ s s' ss ss' hs hrest =>
    simp only [List.head?_cons, Option.bind_some, List.findIdx?_cons]
    by_cases hc : s.contains ref.name.lexeme = true
    · rw [if_pos hc]
      have hentry := hs.entries ref.name.lexeme
      simp only [Option.bind_some, List.getElem?_cons_zero, Option.getD_some]
      generalize s[ref.name.lexeme]? = b? at hentry ⊢
      generalize s'[ρ.key m ref.name.lexeme]? = b?' at hentry ⊢
      cases hentry with
      | none => rfl
      | some hb => simp only [Option.any_some, hb.defined]
    · rw [if_neg hc]
      have hnone (s : Scope) (x : String) (hx : s.contains x = false) : s[x]? = none := by
        rw [Std.TreeMap.contains_eq_isSome_getElem?] at hx
        exact Option.not_isSome_iff_eq_none.1 (Bool.eq_false_iff.1 hx)
      have hc := Bool.eq_false_iff.2 hc
      rw [hnone _ _ (hs.contains_other _ hnew hc), hnone _ _ hc]

theorem record (h : Renamed ρ marks r r') (isRead : Bool) :
    Renamed ρ marks (r.record ref isRead) (r'.record ref' isRead) := by
  intro hlog
  have hagrees := h ((walk_record ref isRead).log hlog)
  obtain ⟨hleft, hright⟩ := findIdx? hm hfind ht hagrees
  unfold Resolution.record
  rw [hleft, hright]
  cases hd : hops ref.id with
  | none => exact hagrees
  | some depth =>
    have hlexeme : ref'.name.lexeme = ρ.key ((marks[depth]?).getD false) ref.name.lexeme := by
      rw [hm.name.1]
      unfold Matching.mark
      rw [show (ρ.lexical hops).hops ref.id = _ from hd]
      rfl
    have hmark (b b' : Binding) (hb : b.Alike b') :
        Binding.Alike { b with used := b.used || isRead } { b' with used := b'.used || isRead } :=
      ⟨hb.defined, congrArg (· || isRead) hb.used⟩
    refine ⟨?_, fun id => ?_, hagrees.log⟩
    · simp only [hlexeme]
      exact hagrees.scopes.modify _ hmark depth
    · simp only [hm.id]
      rw [Std.TreeMap.getElem?_insert, Std.TreeMap.getElem?_insert, hagrees.hops id]

theorem readVariable (h : Renamed ρ marks r r') :
    Renamed ρ marks (r.readVariable ref) (r'.readVariable ref') := by
  intro hlog
  have hagrees := h ((walk_readVariable ref).log hlog)
  have hown := inOwnInitializer hm hfind ht hagrees
  unfold Resolution.readVariable at hlog ⊢
  simp only at hlog ⊢
  rw [hown]
  by_cases hinit : r.inOwnInitializer ref.name = true
  · rw [if_pos hinit] at hlog
    exact absurd ((walk_record ref true).log hlog) (log_report _ _)
  · rw [if_neg hinit] at hlog ⊢
    rw [if_neg hinit]
    exact record hm hfind ht h true hlog

theorem readKeyword (h : Renamed ρ marks r r') (fault? : Option ScopeFault) :
    Renamed ρ marks (r.readKeyword ref fault?) (r'.readKeyword ref' fault?) := by
  cases fault? with
  | some fault => exact report _ _
  | none => exact record hm hfind ht h true

end References

theorem returnFaults (h : Renamed ρ marks r r') (keyword keyword' : Token) (hasValue : Bool)
    (body : BodyKind) :
    Renamed ρ marks (r.returnFaults keyword hasValue body)
      (r'.returnFaults keyword' hasValue body) := by
  unfold Resolution.returnFaults
  by_cases htop : body = .topLevel
  · rw [if_pos htop]
    exact report _ _
  · rw [if_neg htop, if_neg htop]
    by_cases hinit : body = .initializer ∧ hasValue = true
    · rw [if_pos hinit]
      exact report _ _
    · rw [if_neg hinit, if_neg hinit]
      exact h

/-- A class that inherits from itself is reported. -/
theorem openSuper (h : Renamed ρ marks r r') {name name' : Token}
    {superclass superclass' : Option Reference}
    (hs : Option.Rel (Reference.Matched (ρ.lexical hops) marks) superclass superclass')
    (hn : (ρ.lexical hops).token false name name')
    (hfind : ∀ ref ∈ superclass, hops ref.id = Γ.find? ref.name.lexeme)
    (ht : Tracks r (Γ.declare name.lexeme)) :
    Renamed ρ (superMarks superclass marks) (r.openSuper name superclass)
      (r'.openSuper name' superclass') := by
  cases hs with
  | none => exact h
  | @some ref ref' hm =>
    unfold Resolution.openSuper
    simp only
    by_cases hself : ref.name.lexeme = name.lexeme
    · rw [if_pos hself]
      intro hlog
      have hbefore := walk_openScope.log ((walk_bindImplicit _ _).log hlog)
      exact absurd ((walk_readVariable ref).log hbefore) (log_report _ _)
    · have hother : ref'.name.lexeme ≠ name'.lexeme := by
        rw [hm.name.1, hn.1, Renaming.key_false]
        rcases Renaming.key_between (m := (ρ.lexical hops).mark marks ref.id) false hm.name.2 with
          heq | heq
        · rw [Renaming.key_false] at heq
          rwa [heq]
        · rw [Renaming.key_false] at heq
          rw [heq]
          exact hn.2.symm
      have hread : hops ref.id = (Γ.declare name.lexeme).find? ref.name.lexeme := by
        rw [Layers.find?_declare hself]
        exact hfind ref rfl
      rw [if_neg hself, if_neg hother]
      exact bindImplicit (fun _ => Renaming.key_super) ρ.newName.2.symm name name'
        ((readVariable hm hread ht h).openScope false)

end Resolution.Renamed

/-- The hops lead to the innermost scope that has the name. -/
def Occurrence.Leads (hops : NodeId → Option Nat) (o : Occurrence) : Prop :=
  hops o.id = o.layers.find? o.ref.name.lexeme

namespace Resolution.Renamed

variable {ρ : Renaming} {hops : NodeId → Option Nat}

mutual

theorem expr (s : Surroundings) : ∀ {marks : List Bool} {e e' : Expr},
    e.Matched (ρ.lexical hops) marks e' → ∀ {Γ : Layers} {r r' : Resolution}, e.Proper →
    (∀ o ∈ e.occurrences Γ, o.Leads hops) → Tracks r Γ → Renamed ρ marks r r' →
    Renamed ρ marks (Resolution.expr s e r) (Resolution.expr s e' r')
  | _, _, _, .literal _, _, _, _, _, _, _, h => h
  | _, _, _, .grouping hi, _, _, _, hp, ho, ht, h => expr s hi hp ho ht h
  | _, _, _, .unary _ hr, _, _, _, hp, ho, ht, h => expr s hr hp ho ht h
  | _, _, _, .binaryError _ hr, _, _, _, hp, ho, ht, h => expr s hr hp ho ht h
  | _, _, _, .binary hl _ hr, Γ, r, _, hp, ho, ht, h => by
    rw [Expr.occurrences, List.forall_mem_append] at ho
    have hleft := expr s hl hp.1 ho.1 ht h
    exact expr s hr hp.2 ho.2 ((walk_expr s _ r hp.1).2 Γ ht) hleft
  | _, _, _, .conditional hc ht hf, Γ, r, _, hp, ho, htr, h => by
    simp only [Expr.occurrences, List.forall_mem_append] at ho
    have htc := (walk_expr s _ r hp.1).2 Γ htr
    have htt := (walk_expr s _ _ hp.2.1).2 Γ htc
    have hcondition := expr s hc hp.1 ho.1 htr h
    have hthen := expr s ht hp.2.1 ho.2.1 htc hcondition
    exact expr s hf hp.2.2 ho.2.2 htt hthen
  | _, _, _, .variable hm, _, _, _, _, ho, ht, h =>
    readVariable hm (ho _ List.mem_cons_self) ht h
  | _, _, _, .assign hm hv, Γ, r, _, hp, ho, ht, h => by
    rw [Expr.occurrences, List.forall_mem_append] at ho
    have hvalue := expr s hv hp.2 ho.1 ht h
    exact record hm (ho.2 _ List.mem_cons_self) ((walk_expr s _ r hp.2).2 Γ ht) hvalue false
  | _, _, _, .call hc _ ha, Γ, r, _, hp, ho, ht, h => by
    rw [Expr.occurrences, List.forall_mem_append] at ho
    have hcallee := expr s hc hp.1 ho.1 ht h
    exact exprs s ha hp.2 ho.2 ((walk_expr s _ r hp.1).2 Γ ht) hcallee
  | _, _, _, .get hob _, _, _, _, hp, ho, ht, h => expr s hob hp ho ht h
  | _, _, _, .set hob _ hv, Γ, r, _, hp, ho, ht, h => by
    rw [Expr.occurrences, List.forall_mem_append] at ho
    have hvalue := expr s hv hp.2 ho.1 ht h
    exact expr s hob hp.1 ho.2 ((walk_expr s _ r hp.2).2 Γ ht) hvalue
  | _, _, _, .this hm, _, _, _, _, ho, ht, h => readKeyword hm (ho _ List.mem_cons_self) ht h _
  | _, _, _, .super hm _, _, _, _, _, ho, ht, h => readKeyword hm (ho _ List.mem_cons_self) ht h _
  | _, _, _, .lambda hf, _, _, _, hp, ho, ht, h => lambda { s with body := .function } hf hp ho ht h

theorem exprs (s : Surroundings) : ∀ {marks : List Bool} {es es' : List Expr},
    Expr.MatchedAll (ρ.lexical hops) marks es es' → ∀ {Γ : Layers} {r r' : Resolution},
    Expr.ProperAll es → (∀ o ∈ Expr.occurrencesAll Γ es, o.Leads hops) → Tracks r Γ →
    Renamed ρ marks r r' → Renamed ρ marks (Resolution.exprs s es r) (Resolution.exprs s es' r')
  | _, _, _, .nil, _, _, _, _, _, _, h => h
  | _, _, _, .cons he hs, Γ, r, _, hp, ho, ht, h => by
    rw [Expr.occurrencesAll, List.forall_mem_append] at ho
    have hfirst := expr s he hp.1 ho.1 ht h
    exact exprs s hs hp.2 ho.2 ((walk_expr s _ r hp.1).2 Γ ht) hfirst

theorem optionalExpr (s : Surroundings) : ∀ {marks : List Bool} {e e' : Option Expr},
    Expr.Matched? (ρ.lexical hops) marks e e' → ∀ {Γ : Layers} {r r' : Resolution},
    Expr.Proper? e → (∀ o ∈ Expr.occurrences? Γ e, o.Leads hops) → Tracks r Γ →
    Renamed ρ marks r r' →
    Renamed ρ marks (Resolution.optionalExpr s e r) (Resolution.optionalExpr s e' r')
  | _, _, _, .none, _, _, _, _, _, _, h => h
  | _, _, _, .some he, _, _, _, hp, ho, ht, h => expr s he hp ho ht h

theorem stmt (s : Surroundings) : ∀ {marks : List Bool} {st st' : Stmt},
    st.Matched (ρ.lexical hops) marks st' → ∀ {Γ : Layers} {r r' : Resolution}, st.Proper →
    (∀ o ∈ st.occurrences Γ, o.Leads hops) → Tracks r Γ → Renamed ρ marks r r' →
    Renamed ρ marks (Resolution.stmt s st r) (Resolution.stmt s st' r')
  | _, _, _, .expression he, _, _, _, hp, ho, ht, h => expr s he hp ho ht h
  | _, _, _, .print he, _, _, _, hp, ho, ht, h => expr s he hp ho ht h
  | _, _, _, .var hn hi, _, _, _, hp, ho, ht, h =>
    define hn (optionalExpr s hi hp.2 ho (tracks_declare ht _) (declare hn h))
  | _, _, _, .block hb, _, _, _, hp, ho, ht, h =>
    closeScope (stmts s hb hp ho (tracks_openScope ht _) (h.openScope _))
  | _, _, _, .ite hc ht hf, Γ, r, _, hp, ho, htr, h => by
    obtain ⟨hpc, ⟨hdeclared, hpt⟩, hpe⟩ := hp
    simp only [Stmt.occurrences, List.forall_mem_append] at ho
    have htc := (walk_expr s _ r hpc).2 Γ htr
    have htt := tracks_undeclared hdeclared (walk_stmt s _ _ hpt).2 Γ htc
    have hcondition := expr s hc hpc ho.1 htr h
    have hthen := stmt s ht hpt ho.2.1 htc hcondition
    exact optionalStmt s hf hpe ho.2.2 htt hthen
  | _, _, _, .loop hc hb hi, Γ, r, _, hp, ho, ht, h => by
    obtain ⟨hpc, ⟨hdeclared, hpb⟩, hpi⟩ := hp
    simp only [Stmt.occurrences, List.forall_mem_append] at ho
    have htc := (walk_expr s _ r hpc).2 Γ ht
    have htb := tracks_undeclared hdeclared (walk_stmt s _ _ hpb).2 Γ htc
    have hcondition := expr s hc hpc ho.1 ht h
    have hbody := stmt s hb hpb ho.2.1 htc hcondition
    exact optionalExpr s hi hpi ho.2.2 htb hbody
  | _, _, _, .break _, _, _, _, _, _, _, h | _, _, _, .continue _, _, _, _, _, _, _, h
  | _, _, _, .breakError _, _, _, _, _, _, _, h
  | _, _, _, .continueError _, _, _, _, _, _, _, h => h
  | _, _, _, .function hn _ hf, _, _, _, hp, ho, ht, h =>
    lambda { s with body := .function } hf hp.2 ho (tracks_define (tracks_declare ht _) _)
      (define hn (declare hn h))
  | _, _, _, .return _ hv, _, _, _, hp, ho, ht, h => by
    have hsome := hv.isSome
    simp only [Resolution.stmt]
    rw [hsome]
    exact optionalExpr s hv hp ho (tracks_returnFaults ht _ _ _) (returnFaults h _ _ _ _)
  | _, .class name superclass own statics, .class name' superclass' own' statics',
    .class hn hname hs hown hstatics, Γ, r, r', hp, ho, ht, h => by
    obtain ⟨_, _, hpo, hpt⟩ := hp
    simp only [Stmt.occurrences, List.forall_mem_append] at ho
    obtain ⟨hos, hoo, hot⟩ := ho
    have hfind : ∀ ref ∈ superclass, hops ref.id = Γ.find? ref.name.lexeme := by
      rintro ref rfl
      exact hos _ List.mem_cons_self
    have hinherits : superclass'.isSome = superclass.isSome := by cases hs <;> rfl
    have ht₀ := tracks_define (tracks_declare ht name) name
    have ht₁ := tracks_openSuper ht₀ superclass own statics
    have ht₂ := tracks_bindImplicit "this" name _ (tracks_openScope ht₁ (.receiver own))
    have h₁ := openSuper (define hn (declare hn h)) hs hname hfind ht₀
    have h₂ := bindImplicit (fun _ => Renaming.key_this) ρ.newName.1.symm name name' (h₁.openScope false)
    have h₃ := fun s => closeScope (methods s hown hpo hoo ht₂ h₂)
    have ht₃ := fun s => tracks_closeScope ((walk_methods s own _ hpo).2 _ ht₂)
    simp only [Resolution.stmt]
    rw [hinherits]
    have h₄ := staticMethods { s with cls := .staticMethod } hstatics hpt hot (ht₃ _)
      (h₃ { s with cls := if superclass.isSome then .subclass else .rootClass })
    cases hs with
    | none => exact h₄
    | some _ => exact closeScope h₄

theorem optionalStmt (s : Surroundings) : ∀ {marks : List Bool} {st st' : Option Stmt},
    Stmt.Matched? (ρ.lexical hops) marks st st' → ∀ {Γ : Layers} {r r' : Resolution},
    Stmt.Proper? st → (∀ o ∈ Stmt.occurrences? Γ st, o.Leads hops) → Tracks r Γ →
    Renamed ρ marks r r' →
    Renamed ρ marks (Resolution.optionalStmt s st r) (Resolution.optionalStmt s st' r')
  | _, _, _, .none, _, _, _, _, _, _, h => h
  | _, _, _, .some hst, _, _, _, hp, ho, ht, h => stmt s hst hp.2 ho ht h

theorem stmts (s : Surroundings) : ∀ {marks : List Bool} {body body' : List Stmt},
    Stmt.MatchedAll (ρ.lexical hops) marks body body' → ∀ {Γ : Layers} {r r' : Resolution},
    Stmt.ProperAll body → (∀ o ∈ Stmt.occurrencesAll Γ body, o.Leads hops) → Tracks r Γ →
    Renamed ρ marks r r' →
    Renamed ρ marks (Resolution.stmts s body r) (Resolution.stmts s body' r')
  | _, _, _, .nil, _, _, _, _, _, _, h => h
  | _, _, _, .cons hst hs, Γ, r, _, hp, ho, ht, h => by
    rw [Stmt.occurrencesAll, List.forall_mem_append] at ho
    have hfirst := stmt s hst hp.1 ho.1 ht h
    exact stmts s hs hp.2 ho.2 ((walk_stmt s _ r hp.1).2 Γ ht) hfirst

theorem lambda (s : Surroundings) : ∀ {marks : List Bool} {f f' : Lambda},
    f.Matched (ρ.lexical hops) marks f' → ∀ {Γ : Layers} {r r' : Resolution}, f.Proper →
    (∀ o ∈ f.occurrences Γ, o.Leads hops) → Tracks r Γ → Renamed ρ marks r r' →
    Renamed ρ marks (Resolution.lambda s f r) (Resolution.lambda s f' r')
  | _, _, _, .mk (m := m) hparams hb, _, _, _, hp, ho, ht, h =>
    closeScope (stmts s hb hp.2 ho (tracks_function ht (.mk _ _))
      (parameters hparams (h.openScope m)))

theorem methods (s : Surroundings) : ∀ {marks : List Bool} {decls decls' : List FunctionDecl},
    FunctionDecl.MatchedAll (ρ.lexical hops) marks decls decls' →
    ∀ {Γ : Layers} {r r' : Resolution}, FunctionDecl.ProperAll decls →
    (∀ o ∈ FunctionDecl.occurrencesAll Γ decls, o.Leads hops) → Tracks r Γ →
    Renamed ρ marks r r' →
    Renamed ρ marks (Resolution.methods s decls r) (Resolution.methods s decls' r')
  | _, _, _, .nil, _, _, _, _, _, _, h => h
  | _, _, _, .cons hn hf hs, Γ, r, _, hp, ho, ht, h => by
    rw [FunctionDecl.occurrencesAll, List.forall_mem_append] at ho
    simp only [Resolution.methods]
    rw [show _ = _ from hn.1, Renaming.key_false]
    exact methods s hs hp.2 ho.2 ((walk_lambda _ _ r hp.1).2 Γ ht) (lambda _ hf hp.1 ho.1 ht h)

theorem staticMethods (s : Surroundings) : ∀ {marks : List Bool} {decls decls' : List FunctionDecl},
    FunctionDecl.MatchedAll (ρ.lexical hops) marks decls decls' →
    ∀ {Γ : Layers} {r r' : Resolution}, FunctionDecl.ProperAll decls →
    (∀ o ∈ FunctionDecl.occurrencesAll Γ decls, o.Leads hops) → Tracks r Γ →
    Renamed ρ marks r r' →
    Renamed ρ marks (Resolution.staticMethods s decls r) (Resolution.staticMethods s decls' r')
  | _, _, _, .nil, _, _, _, _, _, _, h => h
  | _, _, _, .cons _ hf hs, Γ, r, _, hp, ho, ht, h => by
    rw [FunctionDecl.occurrencesAll, List.forall_mem_append] at ho
    have hfirst := lambda { s with body := .function } hf hp.1 ho.1 ht h
    exact staticMethods s hs hp.2 ho.2 ((walk_lambda _ _ r hp.1).2 Γ ht) hfirst

end

end Resolution.Renamed

/-- With another name for a variable a program that is accepted is accepted still, and its occurrences
lead to the same scopes. -/
theorem resolve_renamed {ρ : Renaming} {hops : NodeId → Option Nat} {p p' : Program}
    (hm : p.Matched (ρ.lexical hops) p') (hp : p.Proper) (ho : ∀ o ∈ p.occurrences, o.Leads hops)
    (hlog : (resolve p).log = []) :
    (resolve p').log = [] ∧ ∀ id : NodeId, (resolve p').hops[id]? = (resolve p).hops[id]? := by
  have htracks : Tracks .start [] := rfl
  have hstart : Resolution.Renamed ρ [] .start .start := fun _ => ⟨.nil, fun _ => rfl, rfl⟩
  cases hm with
  | statements h =>
    have hend := Resolution.Renamed.stmts .topLevel h hp ho htracks hstart hlog
    exact ⟨hend.log, hend.hops⟩
  | expression h =>
    have hend := Resolution.Renamed.expr .topLevel h hp ho htracks hstart hlog
    exact ⟨hend.log, hend.hops⟩

end Lox
