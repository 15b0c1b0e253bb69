import Lox.Proofs.Loops.Accesses

/-!
The actions of two runs between the evaluations of their parts, of which the second one has increments
in loop bodies. They take no fuel, and end alike on machines that correspond.
-/

namespace Lox

open Run

/-- Machines whose heaps correspond. The code that runs has the marked scopes around it besides, and its
occurrences are found by a detour. -/
structure Machine.Beside (d : Detour) (K : List Bool) (w : List FrameId) (m m' : Machine) : Prop where
  heap : m.heap.Beside d w m'.heap
  environment : m.environment.Beside w K m'.environment
  hops : ∀ id, m.hops[id]? = d.direct id
  hops' : ∀ id, m'.hops[id]? = d.around id
  printed : m'.printed = m.printed
  time : m'.time = m.time

inductive Completion.Beside (d : Detour) (w : List FrameId) : Completion → Completion → Prop where
  | normal : Beside d w .normal .normal
  | «return» {v v' : Value} (h : v.Beside d w v') : Beside d w (.return v) (.return v')
  | «break» : Beside d w .break .break
  | «continue» : Beside d w .continue .continue

/-- Two actions that end alike, with the same error if there is one. -/
abbrev Run.Steady {α β : Type} (d : Detour) (K : List Bool) (A : List FrameId → α → β → Prop)
    (w : List FrameId) (p : Run α) (q : Run β) : Prop := Meet Eq (Machine.Beside d K) A w p q

variable {d : Detour} {K : List Bool} {w : List FrameId}

namespace Run

variable {α β : Type} {A : List FrameId → α → β → Prop} {v v' u u' : Value}

theorem fail_steady (t : Token) (fault : RuntimeFault) :
    Steady d K A w (fail t fault) (fail t fault) := .of_agree (.throw rfl)

theorem access_steady {q : Access α} {q' : Access β} (hq : Access.Beside d A w q q') :
    Steady d K A w (access q) (access q') := by
  intro m m' hm
  obtain ⟨heap, environment, hops, printed, time⟩ := m
  obtain ⟨heap', environment', hops', printed', time'⟩ := m'
  obtain ⟨w', hw, hends⟩ := hq heap heap' hm.heap
  have hmachine {g g' : Heap} (hg : g.Beside d w' g') :
      Machine.Beside d K w' ⟨g, environment, hops, printed, time⟩
        ⟨g', environment', hops', printed', time'⟩ :=
    ⟨hg, hm.environment.mono hw, hm.hops, hm.hops', hm.printed, hm.time⟩
  refine ⟨w', hw, ?_⟩
  unfold access
  simp only
  generalize q heap = r at hends ⊢
  generalize q' heap' = r' at hends ⊢
  cases hends with
  | ok ha hg => exact .ok ha (hmachine hg)
  | error he hg => exact .error (congrArg Halt.error he) (hmachine hg)

theorem environment_steady :
    Steady d K (fun w => Environment.Beside w K) w environment environment :=
  .of_agree fun _ _ hm => .ok hm.environment hm

theorem print_steady (hv : v.Beside d w v') : Steady d K (fun _ => Eq) w (print v) (print v') := by
  refine .of_agree fun m m' hm => ?_
  have hprinted : v'.text :: m'.printed = v.text :: m.printed := by rw [hv.resembles.text, hm.printed]
  exact .ok rfl ⟨hm.heap, hm.environment, hm.hops, hm.hops', hprinted, hm.time⟩

theorem hops?_steady (id : NodeId) :
    Steady d K (fun _ i i' => i = d.direct id ∧ i' = d.around id) w (hops? id) (hops? id) :=
  .of_agree fun _ _ hm => .ok ⟨hm.hops id, hm.hops' id⟩ hm

section References

variable {ref : Reference} {role : Role} (hr : d.Leads K role ref)
include hr

theorem lookUp_steady : Steady d K (Value.Beside d) w (lookUp ref) (lookUp ref) := by
  unfold lookUp
  refine (hops?_steady ref.id).bind fun w' hw i i' hi => ?_
  obtain ⟨rfl, rfl⟩ := hi
  rw [hr.around]
  cases d.direct ref.id with
  | none => exact access_steady (Access.get_global_beside ref.name)
  | some i =>
    refine environment_steady.bind fun w'' hw' e e' he => ?_
    exact access_steady (Access.getAt_beside ref.name he i)

theorem assign_steady (hv : v.Beside d w v') :
    Steady d K (fun _ => Eq) w (assign ref v) (assign ref v') := by
  unfold assign
  refine (hops?_steady ref.id).bind fun w' hw i i' hi => ?_
  obtain ⟨rfl, rfl⟩ := hi
  rw [hr.around]
  cases d.direct ref.id with
  | none => exact access_steady (Access.assign_global_beside ref.name (hv.mono (.refl d) hw))
  | some i =>
    refine environment_steady.bind fun w'' hw' e e' he => ?_
    exact access_steady (Access.assignAt_beside ref.name he i (hv.mono (.refl d) (hw.trans hw')))

end References

theorem superMethod_steady {ref : Reference} (hr : d.Leads K .super ref) (method : Token) :
    Steady d K (Value.Beside d) w (superMethod ref method) (superMethod ref method) := by
  unfold superMethod
  refine (hops?_steady ref.id).bind fun w' hw i i' hi => ?_
  obtain ⟨rfl, rfl⟩ := hi
  rw [hr.around]
  cases hdirect : d.direct ref.id with
  | none => exact fail_steady _ _
  | some i =>
    refine environment_steady.bind fun w₁ hw₁ e e' he => ?_
    refine (access_steady (Access.getAt_beside ref.name he i)).bind fun w₂ hw₂ v v' hv => ?_
    cases hv with
    | «class» hc =>
      rename_i cls cls'
      simp only
      rw [hr.receiver rfl i hdirect]
      refine (access_steady (Access.getAt_beside _ (he.mono hw₂) (i - 1))).bind
        fun w₃ hw₃ u u' hu => ?_
      cases hu with
      | «instance» ho =>
        have hmethod := (hc.mono (.refl d) hw₃).method? method.lexeme
        simp only
        generalize cls.method? method.lexeme = f? at hmethod ⊢
        generalize cls'.method? method.lexeme = f?' at hmethod ⊢
        cases hmethod with
        | none => exact fail_steady method _
        | some hf =>
          exact (access_steady (Access.bindMethod_beside hf ho)).map fun _ _ _ => Value.Beside.function
      | _ => exact fail_steady _ _
    | _ => exact fail_steady _ _

theorem superclass_steady {ref? : Option Reference} (hr : ∀ ref ∈ ref?, d.Leads K .read ref) :
    Steady d K (fun w sup sup' => Option.Rel (Class.Beside d w) sup sup' ∧
      superMarks sup K = superMarks ref? K) w (superclass ref?) (superclass ref?) := by
  cases ref? with
  | none => exact .pure ⟨.none, rfl⟩
  | some ref =>
    refine (lookUp_steady (hr ref rfl)).bind fun w' hw v v' hv => ?_
    cases hv with
    | «class» hc => exact .pure ⟨.some hc, rfl⟩
    | _ => exact fail_steady _ _

theorem Computes.steady {operator : Token} {p p' : Run Value} (h : Computes operator operator p p') :
    Steady d K (Value.Beside d) w p p' := by
  cases h with
  | boolean b => exact .pure (.boolean b)
  | number x => exact .pure (.number x)
  | string s => exact .pure (.string s)
  | fails fault => exact fail_steady operator fault

theorem property_steady (name : Token) (hv : v.Beside d w v') :
    Steady d K (Value.Beside d) w (property v name) (property v' name) := by
  cases hv with
  | «instance» ho => exact access_steady (Access.instanceProperty_beside name ho)
  | «class» hc => exact access_steady (Access.classProperty_beside name hc)
  | _ => exact fail_steady name _

theorem propertyTable_steady (name : Token) (hv : v.Beside d w v') :
    Steady d K (fun _ => Eq) w (propertyTable v name) (propertyTable v' name) := by
  cases hv with
  | «instance» ho => exact .pure ho.id.symm
  | «class» hc => exact .pure hc.own.id.symm
  | _ => exact fail_steady name _

/-- Nothing is declared in the scope of a loop body. -/
theorem define_steady (hK : K.head? ≠ some true) (name : Token) {value value' : Option Value}
    (hv : Option.Rel (Value.Beside d w) value value') :
    Steady d K (fun _ => Eq) w (define name value) (define name value') := by
  refine environment_steady.bind fun w' hw e e' he => ?_
  refine access_steady (Access.define_beside name (he.inner hK) ?_)
  exact rel_mono (fun _ _ => Value.Beside.mono (.refl d) hw) hv

theorem closure_steady (name : Option String) {f f' : Lambda} (hf : f.Inlined d.Leads K f')
    (hp : f.Proper) : Steady d K (Value.Beside d) w (closure name f) (closure name f') := by
  refine environment_steady.bind fun w' hw e e' he => ?_
  have hclosure := @Access.newClosure_beside _ _ _ _ _ name [] f f' he hf hp false Bool.noConfusion
  exact (access_steady hclosure).map fun _ _ _ => Value.Beside.function

theorem checkArity_steady (paren : Token) (expected given : Nat) :
    Steady d K (fun _ => Eq) w (checkArity paren expected given) (checkArity paren expected given) := by
  unfold checkArity
  by_cases h : given = expected
  · rw [if_pos h]
    exact .pure rfl
  · rw [if_neg h]
    exact fail_steady paren _

theorem native_steady (f : Native) : Steady d K (Value.Beside d) w (native f) (native f) := by
  cases f with
  | clock =>
    refine .of_agree fun m m' hm => ?_
    unfold native
    simp only
    rw [hm.time]
    exact .ok (.number _) hm

/-- An initializer finds its receiver in its own environment, whose frame is not one of a loop body. -/
theorem callResult_steady {f f' : Closure} (hf : f.Beside d w [] f') {r r' : Completion}
    (hr : r.Beside d w r') : Steady d K (Value.Beside d) w (callResult f r) (callResult f' r') := by
  obtain ⟨K', henvironment, _, hinitializer⟩ := hf.function
  unfold callResult
  rw [hf.isInitializer]
  by_cases hinit : f.isInitializer = true
  · rw [if_pos hinit, if_pos hinit]
    have hplace : placeIn K' 0 = 0 := placeIn_zero (hinitializer hinit)
    have hthis := Access.getAt_beside (d := d) (.synthetic .this "this" 0) henvironment 0
    rw [hplace] at hthis
    exact access_steady hthis
  · rw [if_neg hinit, if_neg hinit]
    cases hr with
    | «return» hv => exact .pure hv
    | _ => exact .pure .nil

end Run

end Lox
