import Lox.Proofs.Scope.Pending

/-!
What the resolver reports of the names in the scopes of a tree: the declarations that nothing reads, at
the end of their scope, and the names that are declared again in one scope.
-/

namespace Lox

namespace Diagnostic

def isNeverUsed (d : Diagnostic) : Bool :=
  match d.problem with
  | .scoping (.neverUsed _) => true
  | _ => false

def isRedeclared (d : Diagnostic) : Bool :=
  match d.problem with
  | .scoping (.redeclared _) => true
  | _ => false

def neverUsed (t : Token) : Diagnostic := .atToken t (.scoping (.neverUsed t.lexeme))

def redeclared (t : Token) : Diagnostic := .atToken t (.scoping (.redeclared t.lexeme))

end Diagnostic

/-- All but assignments mark a name as used. -/
def Role.marks (role : Role) : Bool := role != .target

section Order

theorem reportedBefore_iff (a b : Token) :
    a.reportedBefore b = true ↔ a.line < b.line ∨ a.line = b.line ∧ a.lexeme ≤ b.lexeme := by
  simp [Token.reportedBefore]

theorem reportedBefore_trans (a b c : Token) (h : a.reportedBefore b = true)
    (h' : b.reportedBefore c = true) : a.reportedBefore c = true := by
  rw [reportedBefore_iff] at h h' ⊢
  rcases h with h | ⟨h, hle⟩
  · rcases h' with h' | ⟨h', _⟩
    · exact .inl (Nat.lt_trans h h')
    · exact .inl (h' ▸ h)
  · rcases h' with h' | ⟨h', hle'⟩
    · exact .inl (h ▸ h')
    · exact .inr ⟨h.trans h', String.le_trans hle hle'⟩

theorem reportedBefore_total (a b : Token) : (a.reportedBefore b || b.reportedBefore a) = true := by
  rw [Bool.or_eq_true, reportedBefore_iff, reportedBefore_iff]
  rcases Nat.lt_trichotomy a.line b.line with h | h | h
  · exact .inl (.inl h)
  · exact (String.le_total a.lexeme b.lexeme).imp (fun hle => .inr ⟨h, hle⟩)
      fun hle => .inr ⟨h.symm, hle⟩
  · exact .inr (.inl h)

/-- Only tokens with one name are in no order. -/
theorem lexeme_eq_of_reportedBefore {a b : Token} (h : a.reportedBefore b = true)
    (h' : b.reportedBefore a = true) : a.lexeme = b.lexeme := by
  rw [reportedBefore_iff] at h h'
  rcases h with h | ⟨h, hle⟩
  · rcases h' with h' | ⟨h', _⟩ <;> omega
  · rcases h' with h' | ⟨_, hle'⟩
    · omega
    · exact String.le_antisymm hle hle'

/-- Names that are all different are sorted in one way, however they are found. -/
theorem sorted_eq_of_perm {ts us : List Token} (h : ts.Perm us) (hts : (ts.map Token.lexeme).Nodup) :
    ts.mergeSort Token.reportedBefore = us.mergeSort Token.reportedBefore := by
  refine List.Perm.eq_of_pairwise ?_
    (List.pairwise_mergeSort reportedBefore_trans reportedBefore_total ts)
    (List.pairwise_mergeSort reportedBefore_trans reportedBefore_total us)
    ((List.mergeSort_perm ts _).trans (h.trans (List.mergeSort_perm us _).symm))
  intro a b ha hb hab hba
  rw [List.mem_mergeSort] at ha hb
  exact List.inj_on_of_nodup_map hts ha (h.symm.subset hb) (lexeme_eq_of_reportedBefore hab hba)

end Order

namespace ScopeItem

variable {counts : Role → Bool} {x : String} {t : Token}

theorem leave_lexeme {items : List ScopeItem} (h : leave counts items x = some (some t)) :
    t.lexeme = x := by
  induction items with
  | nil => cases h
  | cons item rest ih =>
    cases item with
    | use role ref => exact ih h
    | scope implicit body => exact ih h
    | parameter name =>
      rcases Option.or_eq_some_iff.1 h with h | ⟨_, h⟩
      · exact ih h
      · split at h <;> cases h
    | declare name =>
      rcases Option.or_eq_some_iff.1 h with h | ⟨_, h⟩
      · exact ih h
      · split at h
        next hx =>
          cases hused : usesAll counts x rest <;> rw [hused] at h
          · obtain rfl : name = t := by simpa using h
            exact hx
          · cases h
        next => cases h

/-- The next declaration is reported unless it is used or repeated. -/
theorem unused_declare (name : Token) (rest : List ScopeItem) : unused counts (.declare name :: rest) =
    if usesAll counts name.lexeme rest = false ∧ declares name.lexeme rest = false
    then name :: unused counts rest else unused counts rest := by
  unfold unused
  rw [declarations, List.filter_cons]
  simp only [LocalDeclaration.isUsed, LocalDeclaration.isRepeated, Bool.and_eq_true, Bool.not_eq_true']
  split <;> rfl

/-- What a scope leaves to be reported. -/
theorem mem_unused {body : List ScopeItem} :
    t ∈ unused counts body ↔ leave counts body t.lexeme = some (some t) := by
  induction body with
  | nil => simp [unused, declarations, leave]
  | cons item rest ih =>
    cases item with
    | use role ref => exact ih
    | scope implicit body => exact ih
    | parameter name =>
      rw [leave, Option.or_eq_some_iff, ← ih]
      refine (or_iff_left fun h => ?_).symm
      have hparameter := h.2
      split at hparameter <;> cases hparameter
    | declare name =>
      rw [unused_declare, leave, Option.or_eq_some_iff, ← ih, ← Option.not_isSome_iff_eq_none,
        isSome_leave]
      by_cases ht : name.lexeme = t.lexeme
      · rw [if_pos ht, ← ht]
        cases usesAll counts name.lexeme rest <;> cases hd : declares name.lexeme rest <;>
          simp [eq_comm, or_comm]
      · rw [if_neg ht]
        have hne : t ≠ name := fun h => ht (h ▸ rfl)
        split <;> simp [hne]

theorem unused_sublist (body : List ScopeItem) : (unused counts body).Sublist (own body) := by
  induction body with
  | nil => exact .slnil
  | cons item rest ih =>
    cases item with
    | use role ref => exact ih
    | scope implicit body => exact ih
    | parameter name => exact ih.cons name
    | declare name =>
      rw [unused_declare]
      split
      · exact ih.cons_cons name
      · exact ih.cons name

theorem nodup_unused (body : List ScopeItem) : ((unused counts body).map Token.lexeme).Nodup := by
  induction body with
  | nil => exact .nil
  | cons item rest ih =>
    cases item with
    | use role ref => exact ih
    | scope implicit body => exact ih
    | parameter name => exact ih
    | declare name =>
      rw [unused_declare]
      split
      next h =>
        refine List.nodup_cons.2 ⟨fun hmem => ?_, ih⟩
        obtain ⟨t, ht, hlexeme⟩ := List.mem_map.1 hmem
        have hall := List.any_eq_false.1 h.2 t ((unused_sublist rest).subset ht)
        exact hall (beq_iff_eq.2 hlexeme)
      next => exact ih

end ScopeItem

/-- The names of a scope, each with its token as long as it is not marked. -/
def Scope.pending (s : Scope) : PendingNames := fun x =>
  s[x]?.map fun b => bif b.used then none else some b.token

section Ends

variable {s : Scope} {x : String} {t : Token} {implicit : Option String} {body : List ScopeItem}

theorem pending_eq_some : s.pending x = some (some t) ↔
    ∃ b, s[x]? = some b ∧ b.used = false ∧ b.token = t := by
  rw [Scope.pending, Option.map_eq_some_iff]
  refine exists_congr fun b => and_congr_right fun _ => ?_
  cases b.used <;> simp

theorem unmarked_eq_toList (s : Scope) : (s.values.filter (!·.used)).map Binding.token =
    (s.toList.filter (!·.2.used)).map (·.2.token) := by
  rw [values_eq_toList, List.filter_map, List.map_map]
  rfl

theorem mem_unmarked_toList {e : String × Binding} : e ∈ s.toList.filter (!·.2.used) ↔
    s[e.1]? = some e.2 ∧ e.2.used = false := by
  rw [List.mem_filter, ← Std.TreeMap.mem_toList_iff_getElem?_eq_some, Bool.not_eq_true']

/-- What nothing has marked, by its names. -/
theorem mem_unmarked :
    t ∈ (s.values.filter (!·.used)).map Binding.token ↔ ∃ x, s.pending x = some (some t) := by
  rw [unmarked_eq_toList, List.mem_map]
  constructor
  · rintro ⟨e, he, rfl⟩
    obtain ⟨hget, hunmarked⟩ := mem_unmarked_toList.1 he
    exact ⟨e.1, pending_eq_some.2 ⟨e.2, hget, hunmarked, rfl⟩⟩
  · rintro ⟨x, h⟩
    obtain ⟨b, hget, hunmarked, rfl⟩ := pending_eq_some.1 h
    exact ⟨(x, b), mem_unmarked_toList.2 ⟨hget, hunmarked⟩, rfl⟩

theorem nodup_keys (s : Scope) : (s.toList.map Prod.fst).Nodup := by
  refine List.pairwise_map.2 (Std.TreeMap.distinct_keys_toList.imp fun hne heq => hne ?_)
  rw [heq]
  exact Std.ReflCmp.compare_self

/-- Each token is kept by its own name. -/
theorem nodup_unmarked (hlexeme : ∀ x t, s.pending x = some (some t) → t.lexeme = x) :
    ((s.values.filter (!·.used)).map Binding.token).Nodup := by
  have hkeys : ((s.toList.filter (!·.2.used)).map fun e => e.2.token.lexeme) =
      (s.toList.filter (!·.2.used)).map Prod.fst := by
    refine List.map_congr_left fun e he => ?_
    obtain ⟨hget, hunmarked⟩ := mem_unmarked_toList.1 he
    exact hlexeme _ _ (pending_eq_some.2 ⟨e.2, hget, hunmarked, rfl⟩)
  rw [unmarked_eq_toList]
  apply List.Nodup.of_map Token.lexeme
  rw [List.map_map]
  exact hkeys ▸ (nodup_keys s).sublist (List.filter_sublist.map Prod.fst)

/-- The reports at the end of a scope do not depend on how the scope keeps its names. -/
theorem unused_eq_sorted (h : s.pending =
      fun x => (ScopeItem.leave Role.marks body x).or (PendingNames.openScope implicit x)) :
    s.unused = (ScopeItem.unused Role.marks body).mergeSort Token.reportedBefore := by
  have hleave (x : String) (t : Token) : s.pending x = some (some t) ↔
      ScopeItem.leave Role.marks body x = some (some t) := by
    rw [h, Option.or_eq_some_iff]
    refine or_iff_left fun himplicit => ?_
    have hopen := himplicit.2
    unfold PendingNames.openScope at hopen
    split at hopen <;> cases hopen
  have hlexeme (x : String) (t : Token) (hx : s.pending x = some (some t)) : t.lexeme = x :=
    ScopeItem.leave_lexeme ((hleave x t).1 hx)
  have hnodup : ((ScopeItem.unused Role.marks body).map Token.lexeme).Nodup := ScopeItem.nodup_unused body
  have hperm : (ScopeItem.unused Role.marks body).Perm
      ((s.values.filter (!·.used)).map Binding.token) := by
    refine (List.perm_ext_iff_of_nodup hnodup.of_map (nodup_unmarked hlexeme)).2 fun t => ?_
    rw [ScopeItem.mem_unused, ← hleave, mem_unmarked]
    exact ⟨fun ht => ⟨_, ht⟩, fun ⟨x, hx⟩ => hlexeme x t hx ▸ hx⟩
  exact (sorted_eq_of_perm hperm hnodup).symm

end Ends

def Resolution.pending (r : Resolution) : List PendingNames := r.scopes.map Scope.pending

namespace ScopeItem

/-- The reports at the end of a scope. -/
def unusedReports (body : List ScopeItem) : List Diagnostic :=
  ((unused Role.marks body).mergeSort Token.reportedBefore).map .neverUsed

/-- The names that are declared again in one scope, which has some names from before. -/
def repeated (before : List PendingNames) (items : List ScopeItem) : List Token :=
  match before with
  | [] => []
  | v :: _ => repeats (fun x => (v x).isSome) (own items)

/-- The names that are declared again in a scope from its beginning on. -/
def repeatedOwn (body : List ScopeItem) : List Token := repeats (fun _ => false) (own body)

end ScopeItem

open ScopeItem

/-- A walk over some items. -/
structure Does (items : List ScopeItem) (r r' : Resolution) : Prop where
  pending : r'.pending = after Role.marks items r.pending
  neverUsed : r'.log.filter Diagnostic.isNeverUsed =
    ((scopesAll items).flatMap unusedReports).reverse ++ r.log.filter Diagnostic.isNeverUsed
  redeclared : (r'.log.filter Diagnostic.isRedeclared).Perm
    ((repeated r.pending items ++ (scopesAll items).flatMap repeatedOwn).map .redeclared ++
      r.log.filter Diagnostic.isRedeclared)

section Reported

variable {before : List PendingNames}

theorem repeated_of_own {items : List ScopeItem} (h : own items = []) : repeated before items = [] := by
  cases before with
  | nil => rfl
  | cons v outer =>
    unfold repeated
    rw [h]
    rfl

/-- A name that no text declares stands in no scope with others. -/
theorem repeated_openScope {implicit : Option String} {body : List ScopeItem}
    (h : implicit = none ∨ own body = []) :
    repeated (PendingNames.openScope implicit :: before) body = repeatedOwn body := by
  rcases h with rfl | h
  · rfl
  · rw [repeated_of_own h, repeatedOwn, h]
    rfl

theorem repeated_append (counts : Role → Bool) (i j : List ScopeItem) :
    repeated before (i ++ j) = repeated before i ++ repeated (after counts i before) j := by
  cases before with
  | nil => rfl
  | cons v outer =>
    have hseen : (fun x => ((leave counts i x).or (v.without (usesAll counts · i) x)).isSome) =
        fun x => (own i).any (·.lexeme == x) || (v x).isSome := by
      funext x
      rw [Option.isSome_or, isSome_leave, PendingNames.without, Option.isSome_map]
      rfl
    show repeats _ (own (i ++ j)) = _ ++ repeats _ (own j)
    rw [own_append, repeats_append, hseen]
    rfl

end Reported

namespace Does

variable {i j : List ScopeItem} {r r' r'' : Resolution}

/-- Nothing is done to names, and there is no report of one. -/
theorem quiet (hpending : r'.pending = r.pending)
    (hunused : r'.log.filter Diagnostic.isNeverUsed = r.log.filter Diagnostic.isNeverUsed)
    (hredeclared : r'.log.filter Diagnostic.isRedeclared = r.log.filter Diagnostic.isRedeclared) :
    Does [] r r' := by
  refine ⟨by rw [hpending, after_nil], hunused, ?_⟩
  rw [hredeclared, repeated_of_own rfl]
  exact .refl _

theorem refl : Does [] r r := quiet rfl rfl rfl

theorem append (h : Does i r r') (h' : Does j r' r'') : Does (i ++ j) r r'' where
  pending := by rw [after_append, ← h.pending, h'.pending]
  neverUsed := by
    rw [h'.neverUsed, h.neverUsed, scopesAll_append, List.flatMap_append, List.reverse_append,
      List.append_assoc]
  redeclared := by
    refine h'.redeclared.trans ((h.redeclared.append_left _).trans ?_)
    rw [repeated_append Role.marks, ← h.pending, scopesAll_append, List.flatMap_append]
    simp only [List.map_append]
    classical
    refine List.perm_iff_count.2 fun d => ?_
    simp only [List.count_append]
    omega

theorem after (h : Does [] r r') (h' : Does j r' r'') : Does j r r'' := h.append h'

theorem before (h : Does i r r') (h' : Does [] r' r'') : Does i r r'' := by
  have happend := h.append h'
  rwa [List.append_nil] at happend

theorem cons {item : ScopeItem} (h : Does [item] r r') (h' : Does j r' r'') : Does (item :: j) r r'' :=
  h.append h'

end Does

namespace Resolution

variable {r : Resolution}

theorem does_report (t : Token) {fault : ScopeFault}
    (hunused : (Diagnostic.atToken t (.scoping fault)).isNeverUsed = false)
    (hredeclared : (Diagnostic.atToken t (.scoping fault)).isRedeclared = false) :
    Does [] r (r.report t fault) := by
  refine .quiet rfl ?_ ?_
  · exact List.filter_cons_of_neg (by simp [hunused])
  · exact List.filter_cons_of_neg (by simp [hredeclared])

theorem contains_pending (s : Scope) (x : String) : s.contains x = (s.pending x).isSome := by
  rw [Scope.pending, Option.isSome_map, Std.TreeMap.contains_eq_isSome_getElem?]

theorem pending_insert (s : Scope) (x y : String) (b : Binding) : Scope.pending (s.insert x b) y =
    if x = y then some (bif b.used then none else some b.token) else s.pending y := by
  rw [Scope.pending, Std.TreeMap.getElem?_insert]
  by_cases hx : x = y
  · rw [if_pos hx, if_pos (Std.LawfulEqCmp.compare_eq_iff_eq.2 hx)]
    rfl
  · rw [if_neg hx, if_neg fun h => hx (Std.LawfulEqCmp.compare_eq_iff_eq.1 h)]
    rfl

/-- The name may come to be marked. -/
theorem pending_modify (s : Scope) (x : String) {f : Binding → Binding} {mark : Bool}
    (hused : ∀ b, (f b).used = (b.used || mark)) (htoken : ∀ b, (f b).token = b.token) :
    Scope.pending (s.modify x f) = s.pending.without fun y => mark && x == y := by
  funext y
  rw [Scope.pending, Std.TreeMap.getElem?_modify, PendingNames.without, Scope.pending, Option.map_map]
  by_cases hx : x = y
  · subst hx
    rw [if_pos Std.ReflCmp.compare_self, Option.map_map]
    refine congrArg (Option.map · s[x]?) (funext fun b => ?_)
    simp only [Function.comp_apply, hused, htoken, beq_self_eq_true, Bool.and_true]
    cases b.used <;> cases mark <;> rfl
  · rw [if_neg fun h => hx (Std.LawfulEqCmp.compare_eq_iff_eq.1 h), beq_eq_false_iff_ne.2 hx,
      Bool.and_false]
    rfl

theorem modifyInnermost_marks (x : String) {f : Binding → Binding} (mark : Bool)
    (hused : ∀ b, (f b).used = (b.used || mark)) (htoken : ∀ b, (f b).token = b.token) :
    (modifyInnermost x f r).log = r.log ∧ (modifyInnermost x f r).pending = match r.pending with
      | [] => []
      | v :: outer => v.without (fun y => mark && x == y) :: outer := by
  unfold modifyInnermost Resolution.pending
  cases hr : r.scopes with
  | nil => exact ⟨rfl, congrArg _ hr⟩
  | cons s rest => exact ⟨rfl, congrArg (· :: _) (pending_modify s x hused htoken)⟩

theorem define_keeps (t : Token) : (r.define t).log = r.log ∧ (r.define t).pending = r.pending := by
  obtain ⟨hlog, hpending⟩ := modifyInnermost_marks (r := r) t.lexeme false
    (f := ({ · with defined := true })) (fun b => (Bool.or_false b.used).symm) fun _ => rfl
  refine ⟨hlog, hpending.trans ?_⟩
  cases r.pending with
  | nil => rfl
  | cons v outer => exact congrArg (· :: _) (without_false v)

theorem does_define (t : Token) : Does [] r (r.define t) :=
  .quiet (define_keeps t).2 (congrArg _ (define_keeps t).1) (congrArg _ (define_keeps t).1)

/-- A name joins the innermost scope in the place of an earlier one. -/
theorem does_entry {r' : Resolution} {item : ScopeItem} {t : Token} (left : Option Token)
    (huses : ∀ x, item.uses Role.marks x = false) (hscopes : item.scopes = [])
    (hleave : leave Role.marks [item] = fun x => if t.lexeme = x then some left else none)
    (hpending : r'.pending = match r.pending with
      | [] => []
      | v :: outer => (fun x => if t.lexeme = x then some left else v x) :: outer)
    (hlog : r'.log = (repeated r.pending [item]).map .redeclared ++ r.log) : Does [item] r r' := by
  have hall : scopesAll [item] = [] := by rw [scopesAll, hscopes]; rfl
  have hnone : (fun x => usesAll Role.marks x [item]) = fun _ => false := by
    funext x
    rw [usesAll, huses, usesAll, Bool.and_false]
    rfl
  refine ⟨?_, ?_, ?_⟩
  · rw [hpending, ScopeItem.after, hnone, withoutAll_false, hleave]
    cases r.pending with
    | nil => rfl
    | cons v outer =>
      simp only
      congr 1
      funext x
      split <;> rfl
  · have hunused : ((repeated r.pending [item]).map Diagnostic.redeclared).filter Diagnostic.isNeverUsed =
        [] := List.filter_eq_nil_iff.2 (List.forall_mem_map.2 fun _ _ => Bool.false_ne_true)
    rw [hlog, hall, List.filter_append, hunused]
    rfl
  · have hsame : ((repeated r.pending [item]).map Diagnostic.redeclared).filter Diagnostic.isRedeclared =
        (repeated r.pending [item]).map Diagnostic.redeclared :=
      List.filter_eq_self.2 (List.forall_mem_map.2 fun _ _ => rfl)
    rw [hlog, hall, List.filter_append, hsame, List.flatMap_nil, List.append_nil]

theorem pending_declare (t : Token) : (r.declare t).pending = match r.pending with
    | [] => []
    | v :: outer => (fun x => if t.lexeme = x then some (some t) else v x) :: outer := by
  unfold declare Resolution.pending
  cases hr : r.scopes with
  | nil => exact congrArg _ hr
  | cons s rest =>
    have hinsert : Scope.pending (s.insert t.lexeme ⟨false, false, t⟩) =
        fun x => if t.lexeme = x then some (some t) else s.pending x :=
      funext fun x => pending_insert s _ x _
    simp only
    split <;> exact congrArg (· :: _) hinsert

theorem log_declare {item : ScopeItem} {t : Token} (hdeclared : item.declared? = some t) :
    (r.declare t).log = (repeated r.pending [item]).map .redeclared ++ r.log := by
  have hown : own [item] = [t] := List.filterMap_cons_some hdeclared
  unfold declare repeated Resolution.pending
  cases hr : r.scopes with
  | nil => rfl
  | cons s rest =>
    simp only [contains_pending, hown, List.map_cons, repeats]
    split <;> rfl

theorem does_declare (t : Token) : Does [.declare t] r (r.declare t) :=
  does_entry (some t) (fun _ => rfl) rfl rfl (pending_declare t) (log_declare rfl)

theorem does_declareParameter (t : Token) : Does [.parameter t] r (r.declareParameter t) := by
  obtain ⟨hlog, hpending⟩ := modifyInnermost_marks (r := (r.declare t).define t) t.lexeme true
    (f := ({ · with used := true })) (fun b => (Bool.or_true b.used).symm) fun _ => rfl
  refine does_entry none (fun _ => rfl) rfl rfl (hpending.trans ?_) ?_
  · rw [(define_keeps t).2, pending_declare]
    cases r.pending with
    | nil => rfl
    | cons v outer =>
      refine congrArg (· :: outer) (funext fun x => ?_)
      rw [PendingNames.without]
      by_cases hx : t.lexeme = x
      · simp [hx]
      · simp [hx, beq_eq_false_iff_ne.2 hx]
  · exact hlog.trans ((define_keeps t).1.trans (log_declare rfl))

/-- A use marks the name in the first scope that has it. -/
theorem pending_marked (x : String) {f : Binding → Binding} (mark : Bool)
    (hused : ∀ b, (f b).used = (b.used || mark)) (htoken : ∀ b, (f b).token = b.token)
    (ss : List Scope) : PendingNames.withoutAll (fun y => mark && x == y) (ss.map Scope.pending) =
      match ss.findIdx? (·.contains x) with
      | none => ss.map Scope.pending
      | some depth => (ss.modify depth (·.modify x f)).map Scope.pending := by
  induction ss with
  | nil => rfl
  | cons s rest ih =>
    rw [List.map_cons, withoutAll_name, List.findIdx?_cons, contains_pending]
    split
    · rw [← pending_modify s x hused htoken]
      rfl
    · rw [ih]
      cases rest.findIdx? (·.contains x) <;> rfl

theorem does_record (role : Role) (ref : Reference) :
    Does [.use role ref] r (r.record ref role.marks) := by
  have hlog : (r.record ref role.marks).log = r.log := by
    unfold record
    split <;> rfl
  have hused : (fun x => usesAll Role.marks x [.use role ref]) =
      fun x => role.marks && ref.name.lexeme == x := by
    funext x
    rw [usesAll, uses, usesAll, Bool.and_false, Bool.or_false]
  have hpending : (r.record ref role.marks).pending =
      PendingNames.withoutAll (fun x => role.marks && ref.name.lexeme == x) r.pending := by
    have hmarked := pending_marked ref.name.lexeme role.marks
      (f := fun b => { b with used := b.used || role.marks }) (fun _ => rfl) (fun _ => rfl) r.scopes
    refine Eq.trans ?_ hmarked.symm
    unfold record Resolution.pending
    cases r.scopes.findIdx? (·.contains ref.name.lexeme) <;> rfl
  refine ⟨?_, by rw [hlog]; rfl, ?_⟩
  · rw [hpending, ScopeItem.after, hused]
    cases r.pending <;> rfl
  · rw [hlog, repeated_of_own rfl]
    exact .refl _

/-- The reports at the end of a scope. -/
theorem closeScope_of_pending {v : PendingNames} {outer : List PendingNames} (h : r.pending = v :: outer) :
    r.closeScope.pending = outer ∧ ∃ s : Scope, s.pending = v ∧
      r.closeScope.log = (s.unused.map Diagnostic.neverUsed).reverse ++ r.log := by
  obtain ⟨s, rest, hr, rfl, rfl⟩ := List.map_eq_cons_iff.1 h
  have hfold (ts : List Token) (r : Resolution) :
      (ts.foldl (fun r t => r.report t (.neverUsed t.lexeme)) r).scopes = r.scopes ∧
        (ts.foldl (fun r t => r.report t (.neverUsed t.lexeme)) r).log =
          (ts.map Diagnostic.neverUsed).reverse ++ r.log := by
    induction ts generalizing r with
    | nil => exact ⟨rfl, rfl⟩
    | cons t ts ih =>
      refine ⟨(ih _).1, (ih _).2.trans ?_⟩
      rw [List.map_cons, List.reverse_cons, List.append_assoc]
      rfl
  unfold closeScope Resolution.pending
  rw [hr]
  obtain ⟨hscopes, hlog⟩ := hfold s.unused { r with scopes := rest }
  exact ⟨congrArg _ hscopes, s, rfl, hlog⟩

/-- A scope is opened, perhaps with a name that no text declares, and closed after its items. -/
theorem does_scope {r₀ r₁ : Resolution} {implicit : Option String} {body : List ScopeItem}
    (h : Does body r₀ r₁) (hpending : r₀.pending = PendingNames.openScope implicit :: r.pending)
    (hlog : r₀.log = r.log) (hown : implicit = none ∨ own body = []) :
    Does [.scope implicit body] r r₁.closeScope := by
  have hbody := h.pending
  rw [hpending, after_openScope] at hbody
  obtain ⟨hafter, s, hs, hclosed⟩ := closeScope_of_pending hbody
  have hunused : s.unused.map Diagnostic.neverUsed = unusedReports body :=
    congrArg _ (unused_eq_sorted hs)
  have hall : scopesAll [.scope implicit body] = scopesAll body ++ [body] := List.append_nil _
  rw [hunused] at hclosed
  refine ⟨hafter, ?_, ?_⟩
  · have hkept : (unusedReports body).filter Diagnostic.isNeverUsed = unusedReports body :=
      List.filter_eq_self.2 (List.forall_mem_map.2 fun _ _ => rfl)
    rw [hclosed, List.filter_append, List.filter_reverse, hkept, h.neverUsed, hlog, hall,
      List.flatMap_append, List.flatMap_singleton, List.reverse_append, List.append_assoc]
  · have hnone : (unusedReports body).filter Diagnostic.isRedeclared = [] :=
      List.filter_eq_nil_iff.2 (List.forall_mem_map.2 fun _ _ => Bool.false_ne_true)
    have hinner := h.redeclared
    rw [hpending, repeated_openScope hown, hlog] at hinner
    rw [hclosed, List.filter_append, List.filter_reverse, hnone, repeated_of_own rfl, hall,
      List.flatMap_append, List.flatMap_singleton]
    exact hinner.trans ((List.perm_append_comm.map _).append_right _)

end Resolution

end Lox
