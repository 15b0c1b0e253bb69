import Lox.Proofs.Evaluation.Invariant
import Lox.Proofs.Outcome

/-!
What the accesses to the heap keep: names are added to frames, no name is taken away, and what is
written is sound.
-/

namespace Lox

theorem Token.IsName.not_implicit {name : Token} (h : name.IsName) : ¬ Implicit name.lexeme :=
  fun hx => hx.elim h.1 h.2

namespace Heap

variable {h : Heap} {W : World} {begun : Begun}

theorem grows_newFrame (outer : List FrameId) : h.Grows (h.newFrame outer).2 := by
  constructor
  · rw [size_newFrame]
    exact Nat.le_succ _
  · intro frame x hx
    rwa [slot?_newFrame]
  · intro frame _ x _
    rw [slot?_newFrame]

/-- A write to a name that a text may declare. -/
theorem grows_setSlot {frame : FrameId} {x : String} (hlt : frame < h.frames.size)
    (hx : ¬ Implicit x) (slot : Slot) : h.Grows (h.setSlot frame x slot) := by
  constructor
  · exact Nat.le_of_eq (size_setSlot frame x slot).symm
  · intro other y hy
    rw [slot?_setSlot h hlt]
    split
    · rfl
    · exact hy
  · intro other _ y hy
    rw [slot?_setSlot h hlt, if_neg]
    intro hsame
    exact hx (hsame.2 ▸ hy)

theorem slot?_enter (outer : List FrameId) (x : String) (slot : Slot) (frame : FrameId) (y : String) :
    ((h.newFrame outer).2.setSlot h.frames.size x slot).slot? frame y =
      if h.frames.size = frame ∧ x = y then some slot else h.slot? frame y := by
  have hlt : h.frames.size < (h.newFrame outer).2.frames.size := by
    rw [size_newFrame]
    exact Nat.lt_succ_self _
  rw [slot?_setSlot _ hlt, slot?_newFrame]

/-- A new frame may have any name. -/
theorem grows_enter (outer : List FrameId) (x : String) (slot : Slot) :
    h.Grows ((h.newFrame outer).2.setSlot h.frames.size x slot) := by
  constructor
  · rw [size_setSlot, size_newFrame]
    exact Nat.le_succ _
  · intro frame y hy
    rw [slot?_enter]
    split
    · rfl
    · exact hy
  · intro frame hframe y _
    rw [slot?_enter, if_neg]
    intro hsame
    exact Nat.lt_irrefl _ (hsame.1 ▸ hframe)

/-- A change of what is not a frame. -/
theorem grows_of_frames {h' : Heap} (hframes : h'.frames = h.frames) : h.Grows h' := by
  have hslot (frame : FrameId) (x : String) : h'.slot? frame x = h.slot? frame x := by
    unfold slot?
    rw [hframes]
  constructor
  · exact Nat.le_of_eq (congrArg Array.size hframes.symm)
  · intro frame x hx
    rwa [hslot]
  · exact fun frame _ x _ => hslot frame x

end Heap

/-- A heap stays sound when one slot of it is written. -/
theorem View.Sound.write {w w' : View} {frame : FrameId} {x : String} {slot : Slot} (hs : w.Sound)
    (hle : w.Le w') (hslot : ∀ other y, w'.heap.slot? other y =
      if frame = other ∧ x = y then some slot else w.heap.slot? other y)
    (hobjects : w'.heap.objects = w.heap.objects)
    (hv : ∀ v, slot = .assigned v → v.Sound w') : w'.Sound := by
  apply hs.update hle
  · intro other y v hread
    rw [hslot] at hread
    split at hread
    · exact .inr (hv v (Option.some.inj hread))
    · exact .inl hread
  · intro object y v hread
    unfold Heap.property? at hread
    rw [hobjects] at hread
    exact .inl hread

/-- How a sound access to the heap ends. -/
def Access.Ends {α : Type} (W : World) (begun : Begun) (h : Heap) (Q : Heap → α → Prop) :
    EStateM.Result RuntimeError Heap α → Prop
  | .ok a h' => h.Grows h' ∧ (W.view begun h').Sound ∧ Q h' a
  | .error _ h' => h.Grows h' ∧ (W.view begun h').Sound

namespace Access

variable {α β : Type} {W : World} {begun : Begun} {h : Heap} {Q : Heap → α → Prop}
  {R : Heap → β → Prop}

namespace Ends

theorem ok {a : α} (hs : (W.view begun h).Sound) (ha : Q h a) : Ends W begun h Q (.ok a h) :=
  ⟨.refl h, hs, ha⟩

theorem error {e : RuntimeError} (hs : (W.view begun h).Sound) : Ends W begun h Q (.error e h) :=
  ⟨.refl h, hs⟩

theorem bind {p : Access α} {k : α → Access β} (hp : Ends W begun h Q (p h))
    (hk : ∀ a h', p h = .ok a h' → h.Grows h' → (W.view begun h').Sound → Q h' a →
      Ends W begun h' R (k a h')) : Ends W begun h R ((p >>= k) h) := by
  show Ends W begun h R (EStateM.bind p k h)
  unfold EStateM.bind
  cases hph : p h with
  | error e h' =>
    rw [hph] at hp
    exact hp
  | ok a h' =>
    rw [hph] at hp
    obtain ⟨grows, sound, ha⟩ := hp
    have hends := hk a h' hph grows sound ha
    show Ends W begun h R (k a h')
    cases hkh : k a h' with
    | error e h'' =>
      rw [hkh] at hends
      exact ⟨grows.trans hends.1, hends.2⟩
    | ok b h'' =>
      rw [hkh] at hends
      exact ⟨grows.trans hends.1, hends.2⟩

theorem weaken {Q' : Heap → α → Prop} {r : EStateM.Result RuntimeError Heap α}
    (hends : Ends W begun h Q r) (hQ : ∀ h' a, h.Grows h' → Q h' a → Q' h' a) :
    Ends W begun h Q' r := by
  cases r with
  | ok a h' => exact ⟨hends.1, hends.2.1, hQ h' a hends.1 hends.2.2⟩
  | error e h' => exact hends

end Ends

theorem read_ends (hs : (W.view begun h).Sound) (frame : FrameId) (name : Token) :
    Ends W begun h (W.Gives begun) (read frame name h) := by
  unfold read
  split
  next v hv => exact .ok hs (hs.slots _ _ v hv)
  next => exact .error hs
  next => exact .error hs

theorem get_ends (hs : (W.view begun h).Sound) (e : Environment) (name : Token) :
    Ends W begun h (W.Gives begun) (get e name h) := by
  unfold get
  split
  · exact read_ends hs _ _
  · exact .error hs

theorem getAt_ends (hs : (W.view begun h).Sound) (e : Environment) (distance : Nat) (name : Token) :
    Ends W begun h (W.Gives begun) (getAt e distance name h) := by
  unfold getAt
  cases e.ancestor? distance with
  | none => exact .error hs
  | some ancestor => exact read_ends hs ancestor.inner name

theorem read_ok {frame : FrameId} {name : Token} {v : Value} {h' : Heap}
    (hr : read frame name h = .ok v h') :
    h.slot? frame name.lexeme = some (.assigned v) ∧ h' = h := by
  unfold read at hr
  split at hr
  next hslot =>
    cases hr
    exact ⟨hslot, rfl⟩
  next => cases hr
  next => cases hr

theorem overwrite_ends (hs : (W.view begun h).Sound) (frame : FrameId) {name : Token} {v : Value}
    (hname : name.IsName) (hv : v.Sound (W.view begun h)) :
    Ends W begun h (fun _ _ => True) (overwrite frame name v h) := by
  unfold overwrite
  split
  next hslot =>
    have hlt := Heap.slot?_lt (Option.isSome_of_eq_some hslot)
    have hg := Heap.grows_setSlot hlt hname.not_implicit (.assigned v)
    refine ⟨hg, hs.write hg.le_same (Heap.slot?_setSlot h hlt · _ · _) rfl ?_, trivial⟩
    intro v' hv'
    cases hv'
    exact hv.mono hg.le_same
  next => exact .error hs

theorem assign_ends (hs : (W.view begun h).Sound) (e : Environment) {name : Token} {v : Value}
    (hname : name.IsName) (hv : v.Sound (W.view begun h)) :
    Ends W begun h (fun _ _ => True) (assign e name v h) := by
  unfold assign
  split
  · exact overwrite_ends hs _ hname hv
  · exact .error hs

theorem assignAt_ends (hs : (W.view begun h).Sound) (e : Environment) (distance : Nat) {name : Token}
    {v : Value} (hname : name.IsName) (hv : v.Sound (W.view begun h)) :
    Ends W begun h (fun _ _ => True) (assignAt e distance name v h) := by
  unfold assignAt
  cases e.ancestor? distance with
  | none => exact .error hs
  | some ancestor => exact overwrite_ends hs ancestor.inner hname hv

/-- The name is in the frame in the end, also where it was there before and cannot be defined. So its
initializer may have been begun. -/
theorem define_ends {begun' : Begun} (hs : (W.view begun h).Sound) {e : Environment} {name : Token}
    {value : Option Value} (hlt : e.inner < h.frames.size) (hname : name.IsName)
    (hv : ∀ v ∈ value, v.Sound (W.view begun h))
    (hb : ∀ frame x, begun frame x → begun' frame x ∨ (e.inner = frame ∧ name.lexeme = x)) :
    Ends W begun' h (fun h' _ => (h'.slot? e.inner name.lexeme).isSome) (define e name value h) := by
  have hle {h' : Heap} (hg : h.Grows h') (hthere : (h'.slot? e.inner name.lexeme).isSome) :
      (W.view begun h).Le (W.view begun' h') := by
    apply hg.le
    intro frame x hx
    rcases hb frame x hx with hx | hsame
    · exact .inl hx
    · exact .inr (hsame.1 ▸ hsame.2 ▸ hthere)
  unfold define
  split
  next hslot =>
    have hthere := Option.isSome_of_eq_some hslot
    exact ⟨.refl h, hs.mono (hle (.refl h) hthere) rfl⟩
  next =>
    let slot := (value.map Slot.assigned).getD .unassigned
    have hg := Heap.grows_setSlot hlt hname.not_implicit slot
    have hthere : ((h.setSlot e.inner name.lexeme slot).slot? e.inner name.lexeme).isSome := by
      rw [Heap.slot?_setSlot h hlt, if_pos ⟨rfl, rfl⟩]
      rfl
    refine ⟨hg, hs.write (hle hg hthere) (Heap.slot?_setSlot h hlt · _ · _) rfl ?_, hthere⟩
    intro v hvalue
    cases value with
    | none => cases hvalue
    | some v' =>
      cases hvalue
      exact (hv v rfl).mono (hle hg hthere)

theorem child_ends (hs : (W.view begun h).Sound) (e : Environment) :
    Ends W begun h (fun h' inner => inner = ⟨h.frames.size, e.frames⟩ ∧
      (W.view begun h').Inner h.frames.size) (child e h) := by
  have hg := Heap.grows_newFrame (h := h) e.frames
  refine ⟨hg, hs.update hg.le_same ?_ fun _ _ _ hread => .inl hread, rfl, ?_, ?_⟩
  · intro frame x v hread
    have hread : (h.newFrame e.frames).2.slot? frame x = some (.assigned v) := hread
    rw [Heap.slot?_newFrame] at hread
    exact .inl hread
  · exact Nat.ne_of_gt hs.global
  · exact Nat.lt_of_lt_of_eq (Nat.lt_succ_self _) (Heap.size_newFrame e.frames).symm

/-- A change of the closures only. -/
theorem sound_of_closures (hs : (W.view begun h).Sound) (closures : Nat) :
    h.Grows { h with closures } ∧ (W.view begun { h with closures }).Sound := by
  have hg : h.Grows { h with closures } := Heap.grows_of_frames rfl
  exact ⟨hg, hs.update hg.le_same (fun _ _ _ hread => .inl hread) fun _ _ _ hread => .inl hread⟩

/-- A closure of a function in the scopes of an environment. -/
theorem newClosure_ends (hs : (W.view begun h).Sound) (name : Option String) {function : Lambda}
    {e : Environment} (isInitializer : Bool) :
    Ends W begun h (fun _ c => c.function = function ∧ c.environment = e ∧
        c.isInitializer = isInitializer)
      (newClosure name function e isInitializer h) := by
  obtain ⟨hg, hs'⟩ := sound_of_closures hs (h.closures + 1)
  exact ⟨hg, hs', rfl, rfl, rfl⟩

theorem newObject_ends (hs : (W.view begun h).Sound) {properties : Properties}
    (hp : ∀ (x : String) (v : Value), properties[x]? = some v → v.Sound (W.view begun h)) :
    Ends W begun h (fun _ _ => True) (newObject properties h) := by
  have hg : h.Grows (h.newObject properties).2 := Heap.grows_of_frames rfl
  refine ⟨hg, hs.update hg.le_same (fun _ _ _ hread => .inl hread) ?_, trivial⟩
  intro object x v hread
  have hread : (h.newObject properties).2.property? object x = some v := hread
  rw [Heap.property?_newObject] at hread
  split at hread
  · exact .inr ((hp x v hread).mono hg.le_same)
  · exact .inl hread

theorem setProperty_ends (hs : (W.view begun h).Sound) (object : ObjectId) (x : String) {v : Value}
    (hv : v.Sound (W.view begun h)) :
    Ends W begun h (fun _ _ => True) (setProperty object x v h) := by
  have hg : h.Grows (h.setProperty object x v) := Heap.grows_of_frames rfl
  refine ⟨hg, hs.update hg.le_same (fun _ _ _ hread => .inl hread) ?_, trivial⟩
  intro other y v' hread
  have hread : (h.setProperty object x v).property? other y = some v' := hread
  by_cases hlt : object < h.objects.size
  · rw [Heap.property?_setProperty h hlt] at hread
    split at hread
    · cases hread
      exact .inr (hv.mono hg.le_same)
    · exact .inl hread
  · rw [Heap.setProperty_absent hlt] at hread
    exact .inl hread

/-- A method that is bound keeps its receiver. -/
theorem bindMethod_ends {m : Machine} {method : Closure} {receiver : Instance}
    (hs : (W.view begun m.heap).Sound) (hv : W.visited (.bind method receiver m))
    (hmethod : method.Unbound (W.view begun m.heap))
    (hreceiver : receiver.cls.Sound (W.view begun m.heap)) :
    Ends W begun m.heap (fun h' c => c.Sound (W.view begun h'))
      (bindMethod method receiver m.heap) := by
  obtain ⟨hdecl, hf, outer, proper, code⟩ := hmethod
  let frame := m.heap.frames.size
  let entered := (m.heap.newFrame method.environment.frames).2.setSlot frame "this"
    (.assigned (.instance receiver))
  let h' : Heap := { entered with closures := entered.closures + 1 }
  have hg : m.heap.Grows h' :=
    (Heap.grows_enter method.environment.frames "this" (.assigned (.instance receiver))).trans
      (Heap.grows_of_frames rfl)
  have hslot (other : FrameId) (y : String) : h'.slot? other y =
      if frame = other ∧ "this" = y then some (.assigned (.instance receiver))
      else m.heap.slot? other y :=
    Heap.slot?_enter method.environment.frames "this" (.assigned (.instance receiver)) other y
  have hthis : h'.slot? frame "this" = some (.assigned (.instance receiver)) := by
    rw [hslot, if_pos ⟨rfl, rfl⟩]
  have hlt : frame < h'.frames.size := Heap.slot?_lt (Option.isSome_of_eq_some hthis)
  have hs' : (W.view begun h').Sound := by
    apply hs.write hg.le_same hslot rfl
    intro v hv
    cases hv
    exact hreceiver.mono hg.le_same
  exact ⟨hg, hs', .bound hv rfl hdecl hf ⟨Nat.ne_of_gt hs.global, hlt⟩ hthis (outer.mono hg.le_same)
    proper code⟩

theorem instanceProperty_ends {m : Machine} {receiver : Instance} {name : Token}
    (hs : (W.view begun m.heap).Sound) (hreceiver : receiver.cls.Sound (W.view begun m.heap))
    (hv : ∀ method, m.heap.property? receiver.id name.lexeme = none →
      receiver.cls.method? name.lexeme = some method → W.visited (.bind method receiver m)) :
    Ends W begun m.heap (W.Gives begun) (instanceProperty receiver name m.heap) := by
  unfold instanceProperty
  split
  next v hread => exact .ok hs (hs.properties _ _ v hread)
  next hnone =>
    split
    next method hmethod =>
      have hends := bindMethod_ends hs (hv method hnone hmethod) (hreceiver.method hmethod) hreceiver
      exact hends.bind fun c h' _ _ hs' hc => .ok hs' hc
    next => exact .error hs

theorem classProperty_ends (hs : (W.view begun h).Sound) (cls : Class) (name : Token) :
    Ends W begun h (W.Gives begun) (classProperty cls name h) := by
  unfold classProperty
  split
  next v hread => exact .ok hs (hs.properties _ _ v hread)
  next => exact .error hs

/-- Parameters are bound one after another in a new frame. -/
theorem defineAll_ends {e : Environment} : ∀ {h : Heap} {bindings : List (Token × Value)},
    (W.view begun h).Sound → e.inner < h.frames.size → (∀ b ∈ bindings, b.1.IsName) →
    (∀ b ∈ bindings, b.2.Sound (W.view begun h)) →
    Ends W begun h (fun h' _ => ∀ b ∈ bindings, (h'.slot? e.inner b.1.lexeme).isSome)
      (defineAll e bindings h)
  | _, [], hs, _, _, _ => .ok hs (List.forall_mem_nil _)
  | h, (name, value) :: rest, hs, hlt, hnames, hvalues => by
    rw [List.forall_mem_cons] at hnames hvalues
    have hdefine : Ends W begun h _ (define e name (some value) h) :=
      define_ends hs hlt hnames.1 (fun v hv => Option.some.inj hv ▸ hvalues.1) fun _ _ hx => .inl hx
    apply hdefine.bind
    intro _ h' _ hg hs' hthere
    have hrest : Ends W begun h' _ (defineAll e rest h') :=
      defineAll_ends hs' (Nat.lt_of_lt_of_le hlt hg.size) hnames.2 fun b hb =>
        (hvalues.2 b hb).mono hg.le_same
    exact hrest.weaken fun _ _ hg' hall => List.forall_mem_cons.2 ⟨hg'.kept _ _ hthere, hall⟩

/-- Every method in the table is one of the class. -/
theorem methodTable_ends {e : Environment} {Γ : Layers} {own : List FunctionDecl} :
    ∀ {h : Heap} {decls : List FunctionDecl} {table : Std.TreeMap String Closure},
    (W.view begun h).Sound → Mirrors (W.view begun h) e Γ → (∀ decl ∈ decls, decl ∈ own) →
    FunctionDecl.ProperAll decls →
    (W.view begun h).Knows (FunctionDecl.occurrencesAll (Γ.ofReceiver own) decls) →
    (∀ (x : String) (c : Closure), table[x]? = some c → c.Unbound (W.view begun h)) →
    Ends W begun h (fun h' table =>
        ∀ (x : String) (c : Closure), table[x]? = some c → c.Unbound (W.view begun h'))
      (methodTable e decls table h)
  | _, [], _, hs, _, _, _, _, ht => .ok hs ht
  | h, .mk name function :: rest, table, hs, hm, hown, hp, hk, ht => by
    rw [List.forall_mem_cons] at hown
    have hcode := List.forall_mem_append.1 hk
    apply (newClosure_ends hs (some name.lexeme) (name.lexeme == "init")).bind
    intro c h' _ hg hs' hc
    obtain ⟨hfunction, henv, _⟩ := hc
    have hle : (W.view begun h).Le (W.view begun h') := hg.le_same
    have hunbound : c.Unbound (W.view begun h') := by
      refine .intro hown.1 hfunction.symm (henv ▸ hm.mono hle) (hfunction ▸ hp.1) ?_
      rw [hfunction]
      exact View.Knows.mono hcode.1 hle
    apply methodTable_ends hs' (hm.mono hle) hown.2 hp.2 (View.Knows.mono hcode.2 hle)
    intro x c' hread
    rw [Std.TreeMap.getElem?_insert] at hread
    split at hread
    · cases hread
      exact hunbound
    · exact (ht x c' hread).mono hle

theorem staticTable_ends {e : Environment} {Γ : Layers} :
    ∀ {h : Heap} {decls : List FunctionDecl} {table : Properties},
    (W.view begun h).Sound → Mirrors (W.view begun h) e Γ → FunctionDecl.ProperAll decls →
    (W.view begun h).Knows (FunctionDecl.occurrencesAll Γ decls) →
    (∀ (x : String) (v : Value), table[x]? = some v → v.Sound (W.view begun h)) →
    Ends W begun h (fun h' table =>
        ∀ (x : String) (v : Value), table[x]? = some v → v.Sound (W.view begun h'))
      (staticTable e decls table h)
  | _, [], _, hs, _, _, _, ht => .ok hs ht
  | h, .mk name function :: rest, table, hs, hm, hp, hk, ht => by
    have hcode := List.forall_mem_append.1 hk
    apply (newClosure_ends hs (some name.lexeme) false).bind
    intro c h' _ hg hs' hc
    obtain ⟨hfunction, henv, hordinary⟩ := hc
    have hle : (W.view begun h).Le (W.view begun h') := hg.le_same
    have hsound : c.Sound (W.view begun h') := by
      refine .plain (henv ▸ hm.mono hle) (hfunction ▸ hp.1) ?_ hordinary
      rw [hfunction]
      exact View.Knows.mono hcode.1 hle
    apply staticTable_ends hs' (hm.mono hle) hp.2 (View.Knows.mono hcode.2 hle)
    intro x v hread
    rw [Std.TreeMap.getElem?_insert] at hread
    split at hread
    · cases hread
      exact hsound
    · exact (ht x v hread).mono hle

/-- A body runs in the scopes of its function. -/
def Enters (W : World) (begun : Begun) (body : List Stmt) (h : Heap) (e : Environment) : Prop :=
  ∃ Γ : Layers, Mirrors (W.view begun h) e Γ ∧ Stmt.ProperAll body ∧
    (W.view begun h).Knows (Stmt.occurrencesAll Γ body)

theorem callEnvironment_ends {n : Nat} {closure : Closure} {arguments : List Value} {m : Machine}
    (hv : W.visited (.invoke (n + 1) closure arguments m)) (hs : (W.view begun m.heap).Sound)
    (hclosure : closure.Sound (W.view begun m.heap))
    (harguments : ∀ v ∈ arguments, v.Sound (W.view begun m.heap))
    (harity : arguments.length = closure.function.arity) :
    Ends W begun m.heap (Enters W begun closure.function.body)
      (Run.callEnvironment closure arguments m.heap) := by
  unfold Run.callEnvironment
  apply (child_ends hs closure.environment).bind
  intro inner h' _ hg hs' hinner
  obtain ⟨rfl, hin⟩ := hinner
  have hproper : closure.function.Proper := by
    cases hclosure with
    | plain _ proper _ => exact proper
    | bound _ _ _ _ _ _ _ proper => exact proper
  cases hf : closure.function with
  | mk params body =>
    rw [hf] at hproper harity
    have hnames : ∀ b ∈ params.zip arguments, b.1.IsName :=
      fun b hb => hproper.1 b.1 (List.of_mem_zip hb).1
    have hvalues : ∀ b ∈ params.zip arguments, b.2.Sound (W.view begun h') :=
      fun b hb => (harguments b.2 (List.of_mem_zip hb).2).mono hg.le_same
    apply (defineAll_ends hs' hin.2 hnames hvalues).bind
    intro _ h'' _ hg' hs'' hall
    have hle : (W.view begun m.heap).Le (W.view begun h'') := (hg.trans hg').le_same
    have hin' : (W.view begun h'').Inner m.heap.frames.size := hin.mono hg'.le_same
    have hbinds : ∀ x ∈ (Lambda.mk params body).layer.names,
        (W.view begun h'').Binds m.heap.frames.size x := by
      intro x hx
      obtain ⟨p, hp, rfl⟩ := List.mem_map.1 hx
      have hlength : params.length ≤ arguments.length := Nat.le_of_eq harity.symm
      rw [← List.map_fst_zip hlength] at hp
      obtain ⟨b, hb, rfl⟩ := List.mem_map.1 hp
      exact .inl (hall b hb)
    refine .ok hs'' ?_
    cases hclosure with
    | plain environment proper code =>
      rw [hf] at code
      have hm : Mirrors _ _ (⟨_, (Lambda.mk params body).layer.names⟩ :: _) :=
        .call hv hin' hbinds (environment.mono hle)
      rw [hf] at hm
      exact ⟨_, hm, hproper.2, code.mono hle⟩
    | bound bound made hdecl hfun receives this outer proper code =>
      rw [hf] at code
      have hm := Mirrors.method hv hin' hbinds bound made hdecl hfun (receives.mono hle)
        (Mirrors.fixed hle receives (.inl rfl) this) (outer.mono hle)
      rw [hf] at hm
      exact ⟨_, hm, hproper.2, code.mono hle⟩

theorem define_ok {h h' : Heap} {e : Environment} {name : Token} {value : Option Value}
    (hd : define e name value h = .ok () h') :
    h.slot? e.inner name.lexeme = none ∧ h'.frames.size = h.frames.size := by
  unfold define at hd
  split at hd
  · cases hd
  next hnone =>
    cases hd
    exact ⟨hnone, Heap.size_setSlot _ _ _⟩

/-- A class statement on a machine, with the class that its superclass is. -/
structure Defines (W : World) (begun : Begun) (m : Machine) (name : Token) (ref? : Option Reference)
    (own statics : List FunctionDecl) (superclass : Option Class) (Γ : Layers) : Prop where
  visited : ∃ n, W.visited (.stmt (n + 1) (.class name ref? own statics) m)
  mirrors : Mirrors (W.view begun m.heap) m.environment Γ
  proper : (Stmt.class name ref? own statics).Proper
  code : (W.view begun m.heap).Knows ((Stmt.class name ref? own statics).occurrences Γ)
  inherits : ∀ ref ∈ ref?, ∃ cls, superclass = some cls ∧ Run.lookUp ref m = .ok (.class cls) m
  root : ref? = none → superclass = none
  sound : ∀ cls ∈ superclass, cls.Sound (W.view begun m.heap)

/-- The environment of the methods is inside the scopes of the class. -/
theorem methodEnvironment_ends {m : Machine} {name : Token} {ref? : Option Reference}
    {own statics : List FunctionDecl} {superclass : Option Class} {Γ : Layers} {h : Heap}
    (hd : Defines W begun m name ref? own statics superclass Γ) (hs : (W.view begun h).Sound)
    (hg : m.heap.Grows h) (hsize : h.frames.size = m.heap.frames.size)
    (hnone : m.heap.slot? m.environment.inner name.lexeme = none)
    (hthere : (h.slot? m.environment.inner name.lexeme).isSome) :
    Ends W begun h (fun h' e => Mirrors (W.view begun h') e (Γ.ofClass name ref? own statics))
      (Run.methodEnvironment m.environment superclass h) := by
  obtain ⟨n, hv⟩ := hd.visited
  have hle : (W.view begun m.heap).Le (W.view begun h) := hg.le_same
  have houter : Mirrors (W.view begun h) m.environment (Γ.declare name.lexeme) :=
    (hd.mirrors.mono hle).declare (.inl hthere)
  cases href : ref? with
  | none =>
    rw [hd.root href]
    exact .ok hs houter
  | some ref =>
    obtain ⟨cls, rfl, hlookUp⟩ := hd.inherits ref href
    rw [href] at hv
    let frame := h.frames.size
    let h' := (h.newFrame m.environment.frames).2.setSlot frame "super" (.assigned (.class cls))
    have hg' : h.Grows h' := Heap.grows_enter m.environment.frames "super" (.assigned (.class cls))
    have hslot := Heap.slot?_enter (h := h) m.environment.frames "super" (.assigned (.class cls))
    have hsuper : h'.slot? frame "super" = some (.assigned (.class cls)) := by
      rw [hslot, if_pos ⟨rfl, rfl⟩]
    have hlt : frame < h'.frames.size := Heap.slot?_lt (Option.isSome_of_eq_some hsuper)
    have hs' : (W.view begun h').Sound := by
      apply hs.write hg'.le_same hslot rfl
      intro v hv
      cases hv
      exact Class.Sound.mono (hd.sound cls rfl) (hle.trans hg'.le_same)
    have hm : Mirrors (W.view begun h') ⟨m.heap.frames.size, m.environment.frames⟩
        (⟨.super ref own statics, ["super"]⟩ :: Γ.declare name.lexeme) := by
      have hin : (W.view begun h').Inner frame := ⟨Nat.ne_of_gt hs.global, hlt⟩
      have hbinds : ∀ x ∈ ["super"], (W.view begun h').Binds frame x := by
        intro x hx
        obtain rfl := List.mem_singleton.1 hx
        exact .inl (Option.isSome_of_eq_some hsuper)
      have hframe : frame = m.heap.frames.size := hsize
      rw [hframe] at hin hbinds hsuper
      exact .super hv hlookUp hnone hin hbinds hsuper (houter.mono hg'.le_same)
    rw [← hsize] at hm
    exact ⟨hg', hs', hm⟩

/-- The class is in its frame, and all of its methods are in its scopes. -/
theorem defineClass_ends {m : Machine} {name : Token} {ref? : Option Reference}
    {own statics : List FunctionDecl} {superclass : Option Class} {Γ : Layers}
    (hd : Defines W begun m name ref? own statics superclass Γ)
    (hs : (W.view begun m.heap).Sound) :
    Ends W begun m.heap (fun h' _ => (h'.slot? m.environment.inner name.lexeme).isSome)
      (Run.defineClass name superclass own statics m.environment m.heap) := by
  obtain ⟨hname, _, hown, hstatics⟩ := hd.proper
  obtain ⟨_, hcode⟩ := List.forall_mem_append.1 hd.code
  obtain ⟨hcodeOwn, hcodeStatics⟩ := List.forall_mem_append.1 hcode
  unfold Run.defineClass
  have hbegin : Ends W begun m.heap _ (define m.environment name none m.heap) :=
    define_ends hs (hd.mirrors.inner_lt hs) hname nofun fun _ _ hx => .inl hx
  apply hbegin.bind
  intro _ h₁ hdefine hg₁ hs₁ hthere
  obtain ⟨hnone, hsize⟩ := define_ok hdefine
  apply (methodEnvironment_ends hd hs₁ hg₁ hsize hnone hthere).bind
  intro inner h₂ _ hg₂ hs₂ hm
  have hempty (x : String) (c : Closure) (hc : (∅ : Std.TreeMap String Closure)[x]? = some c) :
      c.Unbound (W.view begun h₂) := by
    rw [Std.TreeMap.getElem?_emptyc] at hc
    cases hc
  apply (methodTable_ends hs₂ hm (fun _ hmem => hmem) hown hcodeOwn hempty).bind
  intro methods h₃ _ hg₃ hs₃ hmethods
  have hnothing (x : String) (v : Value) (hv : (∅ : Properties)[x]? = some v) :
      v.Sound (W.view begun h₃) := by
    rw [Std.TreeMap.getElem?_emptyc] at hv
    cases hv
  apply (staticTable_ends hs₃ (hm.mono hg₃.le_same) hstatics hcodeStatics hnothing).bind
  intro properties h₄ _ hg₄ hs₄ hproperties
  apply (newObject_ends hs₄ hproperties).bind
  intro id h₅ _ hg₅ hs₅ _
  have hlater := ((hg₂.trans hg₃).trans hg₄).trans hg₅
  have hclass : Class.Sound (W.view begun h₅)
      ⟨⟨id, name.lexeme, methods⟩, (superclass.map fun cls => cls.own :: cls.ancestors).getD []⟩ := by
    intro body hbody x method hmethod
    rcases List.mem_cons.1 hbody with rfl | hancestor
    · exact (hmethods x method hmethod).mono (hg₄.trans hg₅).le_same
    · cases superclass with
      | none => cases hancestor
      | some cls =>
        exact (hd.sound cls rfl body hancestor x method hmethod).mono (hg₁.trans hlater).le_same
  exact (assign_ends (v := .class _) hs₅ m.environment hname hclass).weaken fun _ _ hg _ =>
    hg.kept _ _ (hlater.kept _ _ hthere)

/-! What keeps a name in its frame. -/

section Names

variable {e : Environment} {frame : FrameId} {y : String}

/-- The frame has the name. -/
abbrev Has (frame : FrameId) (y : String) (h : Heap) : Prop := (h.slot? frame y).isSome

theorem has_setSlot {h : Heap} (hy : Has frame y h) (written : FrameId) (z : String) (slot : Slot) :
    Has frame y (h.setSlot written z slot) := by
  by_cases hlt : written < h.frames.size
  · unfold Has
    rw [Heap.slot?_setSlot h hlt]
    split
    · rfl
    · exact hy
  · rwa [Heap.setSlot_absent hlt]

theorem child_lasts : Lasts (Has frame y) (child e) := fun h hy => by
  show Has frame y (h.newFrame e.frames).2
  unfold Has
  rwa [Heap.slot?_newFrame]

theorem bind_lasts (z : String) (v : Value) : Lasts (Has frame y) (bind e z v) :=
  fun _ hy => has_setSlot hy _ _ _

theorem newClosure_lasts (name : Option String) (f : Lambda) (isInitializer : Bool) :
    Lasts (Has frame y) (newClosure name f e isInitializer) := fun _ hy => hy

theorem newObject_lasts (p : Properties) : Lasts (Has frame y) (newObject p) :=
  fun _ hy => hy

theorem methodTable_lasts (decls : List FunctionDecl) (t : Std.TreeMap String Closure) :
    Lasts (Has frame y) (methodTable e decls t) := by
  induction decls generalizing t with
  | nil => exact .pure t
  | cons d rest ih =>
    obtain ⟨name, function⟩ := d
    exact (newClosure_lasts _ _ _).bind fun _ => ih _

theorem staticTable_lasts (decls : List FunctionDecl) (t : Properties) :
    Lasts (Has frame y) (staticTable e decls t) := by
  induction decls generalizing t with
  | nil => exact .pure t
  | cons d rest ih =>
    obtain ⟨name, function⟩ := d
    exact (newClosure_lasts _ _ _).bind fun _ => ih _

theorem overwrite_lasts (written : FrameId) (x : Token) (v : Value) :
    Lasts (Has frame y) (overwrite written x v) := by
  intro h hy
  unfold overwrite
  cases h.slot? written x.lexeme with
  | none => exact hy
  | some _ => exact has_setSlot hy _ _ _

/-- A name that the innermost frame has is assigned there. -/
theorem assign_has {h : Heap} (hx : Has e.inner x.lexeme h) (v : Value) :
    assign e x v h = overwrite e.inner x v h := by
  have hholder : h.holder? e x.lexeme = some e.inner := List.find?_cons_of_pos hx
  unfold assign
  rw [hholder]

theorem define_has {x : Token} {h h' : Heap} (hlt : e.inner < h.frames.size) {value : Option Value}
    (hd : define e x value h = .ok () h') : Has e.inner x.lexeme h' := by
  unfold define at hd
  split at hd
  · cases hd
  · cases hd
    unfold Has
    rw [Heap.slot?_setSlot h hlt, if_pos ⟨rfl, rfl⟩]
    rfl

end Names

end Access

theorem Run.methodEnvironment_lasts {e : Environment} {superclass : Option Class} {frame : FrameId}
    {y : String} :
    Lasts (Access.Has frame y) (methodEnvironment e superclass) := by
  cases superclass with
  | none => exact .pure e
  | some cls =>
    exact Access.child_lasts.bind fun _ => (Access.bind_lasts _ _).bind fun inner => .pure _

end Lox
