import Lox.Proofs.Heap.Links
import Mathlib.Order.Bounds.Basic

/-!
Access to a name by itself and by a number of hops. What is found by name is what lies at the least
distance at which there is such a name.
-/

namespace Lox

namespace Heap

variable {h : Heap} {e : Environment} {name : String}

/-- The frame a number of hops out has the name. -/
def HoldsAt (h : Heap) (e : Environment) (name : String) (distance : Nat) : Prop :=
  ∃ a, e.ancestor? distance = some a ∧ (h.slot? a.inner name).isSome

theorem holdsAt_iff {distance : Nat} : h.HoldsAt e name distance ↔
    ∃ frame, e.frames[distance]? = some frame ∧ (h.slot? frame name).isSome := by
  rw [← Environment.ancestor?_inner]
  constructor
  · rintro ⟨a, ha, hs⟩
    exact ⟨a.inner, by rw [ha]; rfl, hs⟩
  · rintro ⟨frame, hf, hs⟩
    obtain ⟨a, ha, rfl⟩ := Option.map_eq_some_iff.1 hf
    exact ⟨a, ha, hs⟩

/-- The nearest frame that has the name is the one at the least distance. -/
theorem holder?_of_least {k : Nat} {a : Environment} (hk : IsLeast {k | h.HoldsAt e name k} k)
    (ha : e.ancestor? k = some a) : h.holder? e name = some a.inner := by
  obtain ⟨b, hb, hs⟩ := hk.1
  obtain rfl : a = b := Option.some.inj (ha.symm.trans hb)
  have hframe : e.frames[k]? = some a.inner := by rw [← Environment.ancestor?_inner, ha]; rfl
  obtain ⟨hlt, hget⟩ := List.getElem?_eq_some_iff.1 hframe
  refine List.find?_eq_some_iff_getElem.2 ⟨hs, k, hlt, hget, fun j hj => ?_⟩
  rw [Bool.not_eq_true', Bool.eq_false_iff]
  intro hsome
  have hle := hk.2 (holdsAt_iff.2 ⟨_, List.getElem?_eq_getElem (Nat.lt_trans hj hlt), hsome⟩)
  omega

theorem holder?_eq_none (hno : ∀ k, ¬ h.HoldsAt e name k) : h.holder? e name = none := by
  refine List.find?_eq_none.2 fun frame hmem hsome => ?_
  obtain ⟨k, hk⟩ := List.mem_iff_getElem?.1 hmem
  exact hno k (holdsAt_iff.2 ⟨frame, hk, hsome⟩)

end Heap

namespace Access

variable {h : Heap} {e : Environment} {name : Token} {k : Nat}

theorem get_of_least (hk : IsLeast {k | h.HoldsAt e name.lexeme k} k) :
    get e name h = getAt e k name h := by
  obtain ⟨a, ha, _⟩ := hk.1
  unfold get getAt
  rw [Heap.holder?_of_least hk ha, ha]

theorem assign_of_least (hk : IsLeast {k | h.HoldsAt e name.lexeme k} k) (value : Value) :
    assign e name value h = assignAt e k name value h := by
  obtain ⟨a, ha, _⟩ := hk.1
  unfold assign assignAt
  rw [Heap.holder?_of_least hk ha, ha]

/-- What an access gives that finds no such name. -/
abbrev undefined {α : Type} (name : Token) (h : Heap) : EStateM.Result RuntimeError Heap α :=
  .error ⟨name, .undefinedVariable name.lexeme⟩ h

section Missing

variable (hno : ∀ k, ¬ h.HoldsAt e name.lexeme k)
include hno

theorem get_missing : get e name h = undefined name h := by
  unfold get
  rw [Heap.holder?_eq_none hno]
  rfl

theorem assign_missing (value : Value) : assign e name value h = undefined name h := by
  unfold assign
  rw [Heap.holder?_eq_none hno]
  rfl

theorem getAt_missing (k : Nat) : getAt e k name h = undefined name h := by
  unfold getAt
  cases ha : e.ancestor? k with
  | none => rfl
  | some a =>
    have hs : h.slot? a.inner name.lexeme = none :=
      Option.not_isSome_iff_eq_none.1 fun hsome => hno k ⟨a, ha, hsome⟩
    show read a.inner name h = _
    unfold read
    rw [hs]
    rfl

theorem assignAt_missing (k : Nat) (value : Value) : assignAt e k name value h = undefined name h := by
  unfold assignAt
  cases ha : e.ancestor? k with
  | none => rfl
  | some a =>
    have hs : h.slot? a.inner name.lexeme = none :=
      Option.not_isSome_iff_eq_none.1 fun hsome => hno k ⟨a, ha, hsome⟩
    show overwrite a.inner name value h = _
    unfold overwrite
    rw [hs]
    rfl

end Missing

/-- A name without a value hides those further out. -/
theorem get_unassigned (hk : IsLeast {k | h.HoldsAt e name.lexeme k} k) {a : Environment}
    (ha : e.ancestor? k = some a) (hs : h.slot? a.inner name.lexeme = some .unassigned) :
    get e name h = .error ⟨name, .unassignedVariable name.lexeme⟩ h := by
  rw [get_of_least hk]
  unfold getAt
  rw [ha]
  show read a.inner name h = _
  unfold read
  rw [hs]
  rfl

end Access

/-- After any operations on environments, access by name is access at the least distance at which an
ancestor has the name, and without such an ancestor every access fails. The operations do the same to
frames that are joined by links, which lead nowhere back, so that every walk along them ends. -/
theorem access_by_name_or_distance (operations : List ScopeOperation) :
    let w := (Workspace.initial.applyAll operations).2
    (∀ e ∈ w.handles, ∀ name : Token,
      (∀ k, IsLeast {k | w.heap.HoldsAt e name.lexeme k} k →
        Access.get e name w.heap = Access.getAt e k name w.heap ∧
        (∀ a, e.ancestor? k = some a → w.heap.slot? a.inner name.lexeme = some .unassigned →
          Access.get e name w.heap = .error ⟨name, .unassignedVariable name.lexeme⟩ w.heap) ∧
        ∀ value, Access.assign e name value w.heap = Access.assignAt e k name value w.heap) ∧
      ((∀ k, ¬ w.heap.HoldsAt e name.lexeme k) →
        Access.get e name w.heap = Access.undefined name w.heap ∧
        (∀ k, Access.getAt e k name w.heap = Access.undefined name w.heap) ∧
        ∀ value, Access.assign e name value w.heap = Access.undefined name w.heap ∧
          ∀ k, Access.assignAt e k name value w.heap = Access.undefined name w.heap)) ∧
    ∃ l, Linked.initial.applyAll operations =
        some ((Workspace.initial.applyAll operations).1, l) ∧
      l.handles = w.handles.map Environment.inner ∧
      (∀ frame name, l.slot? frame name = w.heap.slot? frame name) ∧
      (∀ e ∈ w.handles, l.Chain e.inner e.outer) ∧
      (∀ frame, ¬ Relation.TransGen l.Encloses frame frame) ∧
      ∀ name frame, ∃ found, l.search name frame = some found := by
  intro w
  obtain ⟨l, happly, hshows⟩ := Linked.applyAll_agrees Linked.initial_shows operations
  refine ⟨fun e _ name => ⟨fun k hk => ⟨?_, ?_, ?_⟩, fun hno => ⟨?_, ?_, ?_⟩⟩, l, happly,
    hshows.handles, hshows.slot?_eq, hshows.chain, ?_, ?_⟩
  · exact Access.get_of_least hk
  · exact fun a ha hs => Access.get_unassigned hk ha hs
  · exact Access.assign_of_least hk
  · exact Access.get_missing hno
  · exact Access.getAt_missing hno
  · exact fun value => ⟨Access.assign_missing hno value, fun k => Access.assignAt_missing hno k value⟩
  · exact hshows.descends.acyclic
  · exact hshows.descends.search_ends

/-- A variable with a value, and one of the same name without a value in a scope inside. -/
def hiddenVariable : List ScopeOperation :=
  let a := Token.synthetic .identifier "a" 1
  [.define 0 a (some .nil), .child 0, .define 1 a none]

/-- A variable without a value hides the one further out. -/
theorem access_by_name_or_distance_hidden :
    let heap := (Workspace.initial.applyAll hiddenVariable).2.heap
    let a := Token.synthetic .identifier "a" 1
    Access.get ⟨1, [0]⟩ a heap = .error ⟨a, .unassignedVariable "a"⟩ heap ∧
      Access.getAt ⟨1, [0]⟩ 1 a heap = .ok .nil heap := by
  have hhandle : (Workspace.initial.applyAll hiddenVariable).2.handles[1]? = some ⟨1, [0]⟩ := rfl
  have hslot : (Workspace.initial.applyAll hiddenVariable).2.heap.slot? 1 "a" = some .unassigned := rfl
  have hleast : IsLeast {k | Heap.HoldsAt _ ⟨1, [0]⟩ "a" k} 0 :=
    ⟨⟨_, rfl, Option.isSome_iff_exists.2 ⟨_, hslot⟩⟩, fun k _ => Nat.zero_le k⟩
  have haccess := (access_by_name_or_distance hiddenVariable).1 _ (Array.mem_of_getElem? hhandle)
    (.synthetic .identifier "a" 1)
  exact ⟨(haccess.1 0 hleast).2.1 _ rfl hslot, rfl⟩

end Lox
