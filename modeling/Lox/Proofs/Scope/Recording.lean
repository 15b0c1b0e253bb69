import Lox.Proofs.Scope.Lexical

/-!
What the resolver records of a tree. Each node that finds its name has one entry among the hops, as long
as no two nodes of the tree have one number.
-/

namespace Lox

/-- What is recorded of a node, if a scope around it has the name. -/
def Site.entry? (u : Site) : Option (NodeId × Nat) := u.distance?.map (u.id, ·)

/-- What is recorded of a tree, in the order of the walk. -/
def Program.entries (p : Program) : List (NodeId × Nat) := p.sites.filterMap Site.entry?

theorem mem_entry? {u : Site} {id : NodeId} {distance : Nat} :
    (id, distance) ∈ u.entry? ↔ u.id = id ∧ u.distance? = some distance := by
  unfold Site.entry?
  cases u.distance? <;> simp

theorem entries_keys (us : List Site) :
    ((us.filterMap Site.entry?).map Prod.fst).Sublist (us.map Site.id) := by
  induction us with
  | nil => exact .slnil
  | cons u us ih =>
    rw [List.filterMap_cons]
    cases hentry : u.entry? with
    | none => exact ih.cons u.id
    | some entry =>
      obtain ⟨hid, _⟩ := mem_entry?.1 hentry
      rw [List.map_cons, List.map_cons, ← hid]
      exact ih.cons_cons u.id

section Sublists

theorem sites_append {us us' : List Site} {ids ids' : List NodeId} (h : (us.map Site.id).Sublist ids)
    (h' : (us'.map Site.id).Sublist ids') : ((us ++ us').map Site.id).Sublist (ids ++ ids') := by
  rw [List.map_append]
  exact h.append h'

theorem sites_keyword (ref : Reference) (Γ : Layers) (fault? : Option ScopeFault) :
    ((if fault? = none then [(⟨ref, Γ⟩ : Site)] else []).map Site.id).Sublist [ref.id] := by
  split
  · exact .refl _
  · exact List.nil_sublist _

mutual

/-- The walk comes to the nodes of a tree in the order of their numbers, and to each one once at most. -/
theorem Expr.sites_ids (cls : ClassKind) : ∀ (e : Expr) (Γ : Layers),
    ((e.sites cls Γ).map Site.id).Sublist e.ids
  | .literal _, _ => .slnil
  | .grouping inner, Γ => Expr.sites_ids cls inner Γ
  | .unary _ right, Γ => Expr.sites_ids cls right Γ
  | .binaryError _ right, Γ => Expr.sites_ids cls right Γ
  | .get object _, Γ => Expr.sites_ids cls object Γ
  | .binary left _ right, Γ => sites_append (Expr.sites_ids cls left Γ) (Expr.sites_ids cls right Γ)
  | .conditional condition thenBranch elseBranch, Γ =>
    sites_append (Expr.sites_ids cls condition Γ)
      (sites_append (Expr.sites_ids cls thenBranch Γ) (Expr.sites_ids cls elseBranch Γ))
  | .variable _, _ => .refl _
  | .assign _ value, Γ => sites_append (Expr.sites_ids cls value Γ) (.refl _)
  | .call callee _ arguments, Γ =>
    sites_append (Expr.sites_ids cls callee Γ) (Expr.sites_idsAll cls arguments Γ)
  | .set object _ value, Γ =>
    sites_append (Expr.sites_ids cls value Γ) (Expr.sites_ids cls object Γ)
  | .this ref, Γ => sites_keyword ref Γ cls.thisFault?
  | .super ref _, Γ => sites_keyword ref Γ cls.superFault?
  | .lambda function, Γ => Lambda.sites_ids cls function Γ

theorem Expr.sites_idsAll (cls : ClassKind) : ∀ (es : List Expr) (Γ : Layers),
    ((Expr.sitesAll cls Γ es).map Site.id).Sublist (Expr.idsAll es)
  | [], _ => .slnil
  | e :: rest, Γ => sites_append (Expr.sites_ids cls e Γ) (Expr.sites_idsAll cls rest Γ)

theorem Expr.sites_ids? (cls : ClassKind) : ∀ (e? : Option Expr) (Γ : Layers),
    ((Expr.sites? cls Γ e?).map Site.id).Sublist (Expr.ids? e?)
  | none, _ => .slnil
  | some e, Γ => Expr.sites_ids cls e Γ

theorem Stmt.sites_ids (cls : ClassKind) : ∀ (s : Stmt) (Γ : Layers),
    ((s.sites cls Γ).map Site.id).Sublist s.ids
  | .expression e, Γ => Expr.sites_ids cls e Γ
  | .print e, Γ => Expr.sites_ids cls e Γ
  | .var _ initializer, _ => Expr.sites_ids? cls initializer _
  | .block body, _ => Stmt.sites_idsAll cls body _
  | .ite condition thenBranch elseBranch, Γ =>
    sites_append (Expr.sites_ids cls condition Γ)
      (sites_append (Stmt.sites_ids cls thenBranch Γ) (Stmt.sites_ids? cls elseBranch _))
  | .loop condition body increment, Γ =>
    sites_append (Expr.sites_ids cls condition Γ)
      (sites_append (Stmt.sites_ids cls body Γ) (Expr.sites_ids? cls increment _))
  | .break _, _ | .continue _, _ | .breakError _, _ | .continueError _, _ => .slnil
  | .function (.mk _ function), _ => Lambda.sites_ids cls function _
  | .return _ value, Γ => Expr.sites_ids? cls value Γ
  | .class _ superclass own statics, _ => by
    refine sites_append ?_
      (sites_append (FunctionDecl.sites_idsAll _ own _) (FunctionDecl.sites_idsAll _ statics _))
    cases superclass with
    | none => exact .slnil
    | some ref => exact .refl _

theorem Stmt.sites_ids? (cls : ClassKind) : ∀ (s? : Option Stmt) (Γ : Layers),
    ((Stmt.sites? cls Γ s?).map Site.id).Sublist (Stmt.ids? s?)
  | none, _ => .slnil
  | some s, Γ => Stmt.sites_ids cls s Γ

theorem Stmt.sites_idsAll (cls : ClassKind) : ∀ (body : List Stmt) (Γ : Layers),
    ((Stmt.sitesAll cls Γ body).map Site.id).Sublist (Stmt.idsAll body)
  | [], _ => .slnil
  | s :: rest, Γ => sites_append (Stmt.sites_ids cls s Γ) (Stmt.sites_idsAll cls rest _)

theorem FunctionDecl.sites_idsAll (cls : ClassKind) : ∀ (decls : List FunctionDecl) (Γ : Layers),
    ((FunctionDecl.sitesAll cls Γ decls).map Site.id).Sublist (FunctionDecl.idsAll decls)
  | [], _ => .slnil
  | .mk _ function :: rest, Γ =>
    sites_append (Lambda.sites_ids cls function Γ) (FunctionDecl.sites_idsAll cls rest Γ)

theorem Lambda.sites_ids (cls : ClassKind) : ∀ (f : Lambda) (Γ : Layers),
    ((f.sites cls Γ).map Site.id).Sublist f.ids
  | .mk _ body, _ => Stmt.sites_idsAll cls body _

end

end Sublists

namespace Program

variable (p : Program)

theorem sites_ids : (p.sites.map Site.id).Sublist p.ids := by
  cases p with
  | statements body => exact Stmt.sites_idsAll _ body _
  | expression e => exact Expr.sites_ids _ e _

theorem entries_ids : (p.entries.map Prod.fst).Sublist p.ids :=
  (entries_keys p.sites).trans p.sites_ids

/-- Only the numbers of the tree have hops. -/
theorem hops_of_notMem {id : NodeId} (h : id ∉ p.ids) : (resolve p).hops[id]? = none := by
  rw [hops_resolve]
  exact lastDistance?_of_notMem fun u hu heq => h (p.sites_ids.subset (List.mem_map.2 ⟨u, hu, heq⟩))

/-- No entry is made over another one, so that the map has all of them. -/
theorem hops_entries (h : p.ids.Nodup) : (resolve p).hops.toList.Perm p.entries := by
  have hsites : (p.sites.map Site.id).Nodup := p.sites_ids.nodup h
  have hentries : p.entries.Nodup := .of_map _ (p.entries_ids.nodup h)
  have hmap : (resolve p).hops.toList.Nodup :=
    Std.TreeMap.distinct_keys_toList.imp fun {a b} hne heq => hne (by simp [heq])
  refine (List.perm_ext_iff_of_nodup hmap hentries).2 fun (id, distance) => ?_
  rw [Std.TreeMap.mem_toList_iff_getElem?_eq_some, hops_resolve, entries, List.mem_filterMap]
  constructor
  · intro hlast
    obtain ⟨u, hu, hdistance⟩ := List.mem_filterMap.1 (List.mem_of_getLast? hlast)
    obtain ⟨hu, hid⟩ := List.mem_filter.1 hu
    exact ⟨u, hu, mem_entry?.2 ⟨by simpa using hid, hdistance⟩⟩
  · rintro ⟨u, hu, hentry⟩
    obtain ⟨rfl, hdistance⟩ := mem_entry?.1 hentry
    rw [lastDistance?_of_nodup hsites hu, hdistance]

end Program

end Lox
