import Lox.Proofs.Scope.Unused
import Lox.Proofs.Syntax.Gathering
import Lox.Proofs.Token.Joining
import Lox.Proofs.Token.Spelling
import Mathlib.Data.List.Perm.Basic

/-!
The reports of local names for the programs that texts have: which declarations are reported as unused,
which as repeated, and in which order.
-/

namespace Lox

namespace ScopeItem

variable {items : List ScopeItem} {x : String}

mutual

/-- A name that is neither `this` nor `super` is used by reads only. -/
theorem uses_marks (hthis : x ≠ "this") (hsuper : x ≠ "super") : ∀ item : ScopeItem,
    (∀ w ∈ item.words, w.2.kind = w.1 ∧ w.2.Spelled) →
      item.uses Role.marks x = item.uses (· == .read) x
  | declare _, _ | parameter _, _ => rfl
  | use role ref, hwords => by
    obtain ⟨hkind, hspelled⟩ := hwords _ (List.mem_singleton_self _)
    cases role with
    | read | target => rfl
    | this =>
      have hne : ref.name.lexeme ≠ x := hspelled.this hkind ▸ hthis.symm
      exact beq_eq_false_iff_ne.2 hne
    | super =>
      have hne : ref.name.lexeme ≠ x := hspelled.super hkind ▸ hsuper.symm
      exact beq_eq_false_iff_ne.2 hne
  | scope implicit body, hwords =>
    congrArg (implicit != some x && ·) (usesAll_marks hthis hsuper body hwords)

theorem usesAll_marks (hthis : x ≠ "this") (hsuper : x ≠ "super") : ∀ items : List ScopeItem,
    (∀ w ∈ wordsAll items, w.2.kind = w.1 ∧ w.2.Spelled) →
      usesAll Role.marks x items = usesAll (· == .read) x items
  | [], _ => rfl
  | item :: rest, hwords => by
    obtain ⟨hfirst, hrest⟩ := List.forall_mem_append.1 hwords
    rw [usesAll, usesAll, uses_marks hthis hsuper item hfirst, usesAll_marks hthis hsuper rest hrest]

end

mutual

theorem words_subset : ∀ item : ScopeItem, ∀ body ∈ item.scopes, wordsAll body ⊆ item.words
  | declare _, _, h | parameter _, _, h | use _ _, _, h => nomatch h
  | scope _ inner, body, h => by
    rcases List.mem_append.1 h with h | h
    · exact wordsAll_subset inner body h
    · obtain rfl := List.mem_singleton.1 h
      exact List.Subset.refl _

/-- The words of a scope are among those around it. -/
theorem wordsAll_subset : ∀ items : List ScopeItem, ∀ body ∈ scopesAll items,
    wordsAll body ⊆ wordsAll items
  | [], _, h => nomatch h
  | item :: rest, body, h => by
    rcases List.mem_append.1 h with h | h
    · exact List.subset_append_of_subset_left _ (words_subset item body h)
    · exact List.subset_append_of_subset_right _ (wordsAll_subset rest body h)

end

theorem eq_of_mem_declarations {d : LocalDeclaration} (h : d ∈ declarations items) :
    ∃ before, items = before ++ .declare d.name :: d.after := by
  induction items with
  | nil => cases h
  | cons item rest ih =>
    have hlater (h : d ∈ declarations rest) :
        ∃ before, item :: rest = before ++ .declare d.name :: d.after := by
      obtain ⟨before, hrest⟩ := ih h
      exact ⟨item :: before, congrArg (item :: ·) hrest⟩
    cases item with
    | declare name =>
      rcases List.mem_cons.1 h with rfl | h
      · exact ⟨[], rfl⟩
      · exact hlater h
    | parameter name => exact hlater h
    | use role ref => exact hlater h
    | scope implicit body => exact hlater h

theorem repeats_eq_nil {seen : String → Bool} {ts : List Token} : repeats seen ts = [] ↔
    (∀ t ∈ ts, seen t.lexeme = false) ∧ (ts.map Token.lexeme).Nodup := by
  induction ts generalizing seen with
  | nil => simp [repeats]
  | cons t rest ih =>
    rw [repeats]
    cases hseen : seen t.lexeme with
    | true => simp [hseen]
    | false =>
      simp only [Bool.false_eq_true, if_false, ih, List.forall_mem_cons, hseen, true_and, List.map_cons,
        List.nodup_cons, Bool.or_eq_false_iff, beq_eq_false_iff_ne, List.mem_map, not_exists, not_and]
      constructor
      · rintro ⟨hrest, hnodup⟩
        exact ⟨fun u hu => (hrest u hu).2, fun u hu heq => (hrest u hu).1 heq.symm, hnodup⟩
      · rintro ⟨hrest, hne, hnodup⟩
        exact ⟨fun u hu => ⟨fun heq => hne u hu heq.symm, hrest u hu⟩, hnodup⟩

section Body

variable {body : List ScopeItem} {d : LocalDeclaration}

theorem isRepeated_eq_false (h : repeatedOwn body = []) (hd : d ∈ declarations body) :
    d.isRepeated = false := by
  obtain ⟨before, rfl⟩ := eq_of_mem_declarations hd
  have hnodup := (repeats_eq_nil.1 h).2
  rw [own_append, List.map_append] at hnodup
  have hname := (List.nodup_cons.1 (List.nodup_append.1 hnodup).2.1).1
  refine List.any_eq_false.2 fun t ht heq => hname ?_
  rw [← eq_of_beq heq]
  exact List.mem_map_of_mem ht

variable (hwords : ∀ w ∈ wordsAll body, w.2.kind = w.1 ∧ w.2.Spelled)
include hwords

theorem isUsed_marks (hd : d ∈ declarations body) : d.isUsed Role.marks = d.isUsed (· == .read) := by
  obtain ⟨before, rfl⟩ := eq_of_mem_declarations hd
  rw [wordsAll_append] at hwords
  obtain ⟨hname, hafter⟩ := List.forall_mem_cons.1 (List.forall_mem_append.1 hwords).2
  obtain ⟨hthis, hsuper⟩ := hname.2.name hname.1
  exact usesAll_marks hthis hsuper d.after hafter

/-- Where no name is repeated, what is reported at the end of a scope is what nothing reads. -/
theorem perm_unusedReports (h : repeatedOwn body = []) : (unusedReports body).Perm
    (((declarations body).filter (!·.isUsed (· == .read))).map fun d => .neverUsed d.name) := by
  have hunused : unused Role.marks body =
      ((declarations body).filter (!·.isUsed (· == .read))).map LocalDeclaration.name := by
    refine congrArg _ (List.filter_congr fun d hd => ?_)
    rw [isRepeated_eq_false h hd, isUsed_marks hwords hd, Bool.not_false, Bool.and_true]
  have hsorted := (List.mergeSort_perm (unused Role.marks body) Token.reportedBefore).map
    Diagnostic.neverUsed
  rwa [hunused, List.map_map, ← hunused] at hsorted

end Body

end ScopeItem

open ScopeItem

/-- For the program of any text, a name is reported as declared again each time that one scope does so,
whatever the scopes around it declare. Where no scope repeats a name, the variables, functions and
classes of a scope that no read refers to are reported as unused, each of them once, and no other name
is. -/
theorem local_reports_exact (source : String) (allowExpression : Bool) (nextId : NodeId) :
    let p := (parse (tokensOf (scan source)) allowExpression nextId).program
    ((resolve p).log.filter Diagnostic.isRedeclared).Perm
        (((scopesAll p.items).flatMap repeatedOwn).map .redeclared) ∧
      ((∀ body ∈ scopesAll p.items, repeatedOwn body = []) →
        ((resolve p).log.filter Diagnostic.isNeverUsed).Perm
          ((((scopesAll p.items).flatMap declarations).filter (!·.isUsed (· == .read))).map
            fun d => .neverUsed d.name)) := by
  intro p
  have hwords : ∀ w ∈ wordsAll p.items, w.2.kind = w.1 ∧ w.2.Spelled :=
    (parse_ordered (scan_spelled source) allowExpression nextId).words
  refine ⟨redeclared_resolve p, fun hdistinct => ?_⟩
  have hreports : ((resolve p).log.filter Diagnostic.isNeverUsed).Perm
      ((scopesAll p.items).flatMap unusedReports) := by
    rw [← neverUsed_resolve, List.filter_reverse]
    exact (List.reverse_perm _).symm
  refine hreports.trans ?_
  rw [List.filter_flatMap, List.map_flatMap]
  refine List.Perm.flatMap_left _ fun body hbody => ?_
  exact perm_unusedReports (fun w hw => hwords w (wordsAll_subset _ body hbody hw)) (hdistinct body hbody)

/-- A variable that a function reads and one that it only assigns to. -/
theorem local_reports_exact_captured :
    let p := (parse (tokensOf (scan
      "\x7b var a; var b; fun f() \x7b print a; b = a; \x7d \x7d")) false 0).program
    (∀ body ∈ scopesAll p.items, repeatedOwn body = []) ∧
      ((resolve p).log.filter Diagnostic.isNeverUsed).Perm
        [.neverUsed (.synthetic .identifier "b" 1), .neverUsed (.synthetic .identifier "f" 1)] := by
  intro p
  have hdistinct : (scopesAll p.items).all (fun body => (repeatedOwn body).isEmpty) = true := by
    decide +kernel
  have hnone : ∀ body ∈ scopesAll p.items, repeatedOwn body = [] := fun body hbody =>
    List.isEmpty_iff.1 (List.all_eq_true.1 hdistinct body hbody)
  have hunread : (((scopesAll p.items).flatMap declarations).filter (!·.isUsed (· == .read))).map
      (fun d => Diagnostic.neverUsed d.name) =
        [.neverUsed (.synthetic .identifier "b" 1), .neverUsed (.synthetic .identifier "f" 1)] := by
    decide +kernel
  exact ⟨hnone, hunread ▸ (local_reports_exact _ false 0).2 hnone⟩

section Order

variable {ts : List Token}

/-- The reports come in the order of the names where that is the order of lines and names. -/
theorem sorted_reports_iff : (ts.mergeSort Token.reportedBefore).map Diagnostic.neverUsed =
    ts.map .neverUsed ↔ ts.Pairwise fun a b => a.reportedBefore b = true := by
  constructor
  · intro h
    -- A report has the line and the name of its token, which decide the order.
    let before (d e : Diagnostic) : Prop :=
      ∀ a b, d = .neverUsed a → e = .neverUsed b → a.reportedBefore b = true
    have hsorted : ((ts.mergeSort Token.reportedBefore).map Diagnostic.neverUsed).Pairwise before := by
      refine List.pairwise_map.2 ((List.pairwise_mergeSort reportedBefore_trans reportedBefore_total ts).imp
        fun {t u} htu a b ha hb => ?_)
      simp only [Diagnostic.neverUsed, Diagnostic.atToken, Diagnostic.mk.injEq, Problem.scoping.injEq,
        ScopeFault.neverUsed.injEq] at ha hb
      rw [reportedBefore_iff] at htu ⊢
      rwa [← ha.1, ← ha.2.2, ← hb.1, ← hb.2.2]
    rw [h] at hsorted
    exact (List.pairwise_map.1 hsorted).imp fun {a b} hab => hab a b rfl rfl
  · intro h
    rw [List.mergeSort_of_pairwise h]

theorem reportedBefore_pairwise_iff (hlines : ts.Pairwise fun a b => a.line ≤ b.line) :
    (ts.Pairwise fun a b => a.reportedBefore b = true) ↔
      ts.Pairwise fun a b => a.line = b.line → a.lexeme ≤ b.lexeme := by
  constructor
  · refine fun h => h.imp fun {a b} hab heq => ?_
    rcases (reportedBefore_iff a b).1 hab with hlt | ⟨_, hle⟩
    · omega
    · exact hle
  · refine fun h => (hlines.and h).imp fun {a b} hab => (reportedBefore_iff a b).2 ?_
    rcases Nat.lt_or_eq_of_le hab.1 with hlt | heq
    · exact .inl hlt
    · exact .inr ⟨heq, hab.2 heq⟩

end Order

/-- The unused names of a scope stand in the text in their order. Their reports do not depend on the
order in which the scope yields them, and come in that of the text exactly where the names on one line
are in the order of their letters. -/
theorem unused_reports_order (source : String) (allowExpression : Bool) (nextId : NodeId) :
    let p := (parse (tokensOf (scan source)) allowExpression nextId).program
    (resolve p).log.reverse.filter Diagnostic.isNeverUsed = (scopesAll p.items).flatMap unusedReports ∧
      ∀ body ∈ scopesAll p.items,
        (unused Role.marks body).Sublist (tokensOf (scan source)) ∧
          (∀ found : List Token, found.Perm (unused Role.marks body) →
            (found.mergeSort Token.reportedBefore).map .neverUsed = unusedReports body) ∧
          (unusedReports body = (unused Role.marks body).map .neverUsed ↔
            (unused Role.marks body).Pairwise fun a b => a.line = b.line → a.lexeme ≤ b.lexeme) := by
  intro p
  have hordered := parse_ordered (scan_spelled source) allowExpression nextId
  refine ⟨neverUsed_resolve p, fun body hbody => ?_⟩
  have htext : (unused Role.marks body).Sublist (tokensOf (scan source)) :=
    (unused_sublist body).trans (hordered.scopes body hbody)
  refine ⟨htext, fun found hfound => ?_, ?_⟩
  · have hnodup := ((hfound.map Token.lexeme).nodup_iff).2 (nodup_unused body)
    exact congrArg _ (sorted_eq_of_perm hfound hnodup)
  · exact sorted_reports_iff.trans (reportedBefore_pairwise_iff ((scan_lines source).2.sublist htext))

/-- Two unused names on one line. -/
theorem unused_reports_order_one_line :
    let source := "\x7b var b = 1; var a = 2; \x7d"
    let p := (parse (tokensOf (scan source)) false 0).program
    ∃ b a : Token, b.lexeme = "b" ∧ a.lexeme = "a" ∧ [b, a].Sublist (tokensOf (scan source)) ∧
      (resolve p).log.reverse.filter Diagnostic.isNeverUsed = [.neverUsed a, .neverUsed b] := by
  intro source p
  have hnames : (scopesAll p.items).map (fun body =>
      (unused Role.marks body).map fun t => (t.line, t.lexeme)) = [[(1, "b"), (1, "a")]] := by
    decide +kernel
  obtain ⟨body, hbodies, hnames⟩ := List.map_eq_singleton_iff.1 hnames
  obtain ⟨b, rest, hunused, hb, hrest⟩ := List.map_eq_cons_iff.1 hnames
  obtain ⟨a, rfl, ha⟩ := List.map_eq_singleton_iff.1 hrest
  obtain ⟨hlog, hscopes⟩ := unused_reports_order source false 0
  obtain ⟨htext, hfound, _⟩ := hscopes body (hbodies ▸ List.mem_singleton_self body)
  obtain ⟨hbline, hb⟩ := Prod.mk.inj hb
  obtain ⟨haline, ha⟩ := Prod.mk.inj ha
  rw [hunused] at htext hfound
  have hsorted : [a, b].Pairwise fun t u => t.reportedBefore u = true := by
    refine List.pairwise_pair.2 ((reportedBefore_iff a b).2 (.inr ⟨haline.trans hbline.symm, ?_⟩))
    rw [ha, hb]
    decide
  have hreports := hfound [a, b] (.swap b a [])
  rw [List.mergeSort_of_pairwise hsorted] at hreports
  refine ⟨b, a, hb, ha, htext, hlog.trans ?_⟩
  rw [show (parse (tokensOf (scan source)) false 0).program = p from rfl, hbodies,
    List.flatMap_singleton, ← hreports]
  rfl

end Lox
