import Lox.Proofs.Scope.Items

/-!
What the resolver has yet to report of the names in the open scopes. Each name is kept with its token
until a use refers to it, and every use takes away the innermost one of its name.
-/

namespace Lox

/-- The names of a scope, each with its token as long as no use has referred to it. -/
abbrev PendingNames := String → Option (Option Token)

namespace PendingNames

/-- Some names are used. -/
def without (used : String → Bool) (v : PendingNames) : PendingNames := fun x =>
  (v x).map fun t? => bif used x then none else t?

/-- Some names are used, each one in the innermost scope that has it. -/
def withoutAll (used : String → Bool) : List PendingNames → List PendingNames
  | [] => []
  | v :: outer => v.without used :: withoutAll (fun x => used x && (v x).isNone) outer

def openScope (implicit : Option String) : PendingNames := fun x =>
  if implicit = some x then some none else none

end PendingNames

namespace ScopeItem

/-- The names that the items declare in the scope itself, after all the items. -/
def leave (counts : Role → Bool) : List ScopeItem → PendingNames
  | [] => fun _ => none
  | .declare name :: rest => fun x => (leave counts rest x).or
    (if name.lexeme = x then some (bif usesAll counts x rest then none else some name) else none)
  | .parameter name :: rest => fun x =>
    (leave counts rest x).or (if name.lexeme = x then some none else none)
  | .use _ _ :: rest => leave counts rest
  | .scope _ _ :: rest => leave counts rest

/-- The open scopes after the items, innermost first. -/
def after (counts : Role → Bool) (items : List ScopeItem) (before : List PendingNames) :
    List PendingNames :=
  match PendingNames.withoutAll (usesAll counts · items) before with
  | [] => []
  | v :: outer => (fun x => (leave counts items x).or (v x)) :: outer

end ScopeItem

section Composition

open ScopeItem

variable {counts : Role → Bool} {x : String}

theorem isSome_leave (counts : Role → Bool) (items : List ScopeItem) :
    (leave counts items x).isSome = declares x items := by
  induction items with
  | nil => rfl
  | cons item rest ih =>
    rw [declares_cons]
    cases item with
    | use role ref => exact ih
    | scope implicit body => exact ih
    | declare name =>
      rw [leave, Option.isSome_or, ih, Bool.or_comm]
      by_cases hx : name.lexeme = x <;> simp [declared?, hx]
    | parameter name =>
      rw [leave, Option.isSome_or, ih, Bool.or_comm]
      by_cases hx : name.lexeme = x <;> simp [declared?, hx]

theorem leave_append (i j : List ScopeItem) : leave counts (i ++ j) = fun x =>
    (leave counts j x).or (PendingNames.without (usesAll counts · j) (leave counts i) x) := by
  funext x
  induction i with
  | nil => exact Option.or_none.symm
  | cons item rest ih =>
    cases item with
    | use role ref => exact ih
    | scope implicit body => exact ih
    | declare name =>
      simp only [List.cons_append, leave, ih, PendingNames.without, Option.map_or, Option.or_assoc]
      by_cases hx : name.lexeme = x
      · simp only [if_pos hx]
        cases hrest : leave counts rest x with
        | some t? => rfl
        | none =>
          have hdeclares : declares x rest = false := by
            rw [← isSome_leave counts, hrest]
            rfl
          rw [usesAll_append, hdeclares]
          cases usesAll counts x rest <;> simp
      · simp only [if_neg hx, Option.map_none]
    | parameter name =>
      simp only [List.cons_append, leave, ih, PendingNames.without, Option.map_or, Option.or_assoc]
      by_cases hx : name.lexeme = x <;> simp [hx]

theorem without_without (p q : String → Bool) (v : PendingNames) :
    (v.without p).without q = v.without fun x => p x || q x := by
  funext x
  simp only [PendingNames.without]
  cases v x with
  | none => rfl
  | some t? => cases p x <;> cases q x <;> rfl

theorem withoutAll_withoutAll (p q : String → Bool) (before : List PendingNames) :
    PendingNames.withoutAll q (PendingNames.withoutAll p before) =
      PendingNames.withoutAll (fun x => p x || q x) before := by
  induction before generalizing p q with
  | nil => rfl
  | cons v outer ih =>
    have hinner : (fun x => (p x && (v x).isNone) || (q x && (v.without p x).isNone)) =
        fun x => (p x || q x) && (v x).isNone := by
      funext x
      rw [PendingNames.without, Option.isNone_map, Bool.and_or_distrib_right]
    rw [PendingNames.withoutAll, PendingNames.withoutAll, PendingNames.withoutAll, ih, without_without,
      hinner]

theorem without_false (v : PendingNames) : v.without (fun _ => false) = v := by
  funext x
  exact Option.map_id'

theorem withoutAll_false (before : List PendingNames) :
    PendingNames.withoutAll (fun _ => false) before = before := by
  induction before with
  | nil => rfl
  | cons v outer ih =>
    rw [PendingNames.withoutAll, without_false]
    exact congrArg _ ih

/-- A use of one name takes it from the first scope that has it. -/
theorem withoutAll_name (x : String) (mark : Bool) (v : PendingNames) (outer : List PendingNames) :
    PendingNames.withoutAll (fun y => mark && x == y) (v :: outer) =
      if (v x).isSome then v.without (fun y => mark && x == y) :: outer
      else v :: PendingNames.withoutAll (fun y => mark && x == y) outer := by
  have hothers : (fun y => mark && x == y && (v y).isNone) =
      fun y => (v x).isNone && (mark && x == y) := by
    funext y
    by_cases hy : x = y
    · rw [hy, Bool.and_comm]
    · rw [beq_eq_false_iff_ne.2 hy, Bool.and_false, Bool.false_and, Bool.and_false]
  rw [PendingNames.withoutAll, hothers]
  cases hx : v x with
  | some t? =>
    simp only [Option.isNone_some, Bool.false_and, Option.isSome_some, if_true]
    rw [withoutAll_false]
  | none =>
    have hv : v.without (fun y => mark && x == y) = v := by
      funext y
      by_cases hy : x = y
      · rw [PendingNames.without, ← hy, hx, Option.map_none]
      · rw [PendingNames.without, beq_eq_false_iff_ne.2 hy, Bool.and_false]
        exact Option.map_id'
    rw [hv]
    rfl

theorem after_nil (before : List PendingNames) : after counts [] before = before := by
  unfold after
  have hnone : (fun x => usesAll counts x []) = fun _ => false := rfl
  rw [hnone, withoutAll_false]
  cases before <;> rfl

theorem after_append (i j : List ScopeItem) (before : List PendingNames) :
    after counts (i ++ j) before = after counts j (after counts i before) := by
  cases before with
  | nil => rfl
  | cons v outer =>
    simp only [after, PendingNames.withoutAll, withoutAll_withoutAll]
    congr 1
    · funext x
      rw [leave_append]
      simp only [PendingNames.without, usesAll_append, Option.map_or, Option.or_assoc]
      congr 1
      cases hi : leave counts i x with
      | some t? => rfl
      | none =>
        have hdeclares : declares x i = false := by
          rw [← isSome_leave counts, hi]
          rfl
        rw [hdeclares]
        cases v x with
        | none => rfl
        | some t? => cases usesAll counts x i <;> cases usesAll counts x j <;> rfl
    · congr 1
      funext x
      rw [usesAll_append, ← isSome_leave counts, PendingNames.without]
      cases leave counts i x <;> cases v x <;> cases usesAll counts x i <;> cases usesAll counts x j <;> rfl

theorem openScope_without (implicit : Option String) (used : String → Bool) :
    (PendingNames.openScope implicit).without used = PendingNames.openScope implicit := by
  funext x
  unfold PendingNames.without PendingNames.openScope
  split
  · cases used x <;> rfl
  · rfl

/-- A use in a scope refers to a name from before it unless the scope has the name. -/
theorem usesAll_scope (implicit : Option String) (body : List ScopeItem) :
    usesAll counts x [.scope implicit body] =
      (usesAll counts x body && (PendingNames.openScope implicit x).isNone) := by
  have himplicit : (PendingNames.openScope implicit x).isNone = (implicit != some x) := by
    unfold PendingNames.openScope
    by_cases hx : implicit = some x <;> simp [hx]
  rw [usesAll, uses, usesAll, himplicit, Bool.and_false, Bool.or_false, Bool.and_comm]

/-- At the end of a scope the scopes around it are as they are after it. -/
theorem after_openScope (implicit : Option String) (body : List ScopeItem) (before : List PendingNames) :
    after counts body (PendingNames.openScope implicit :: before) =
      (fun x => (leave counts body x).or (PendingNames.openScope implicit x)) ::
        after counts [.scope implicit body] before := by
  simp only [after, PendingNames.withoutAll, openScope_without, usesAll_scope]
  congr 1
  cases PendingNames.withoutAll
    (fun x => usesAll counts x body && (PendingNames.openScope implicit x).isNone) before <;> rfl

end Composition

end Lox
