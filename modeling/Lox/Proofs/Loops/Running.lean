import Lox.Proofs.Loops.Continuing
import Lox.Proofs.Loops.Sides

/-!
The two runs keep together through every expression, statement and call: by induction on the fuel of the
first one, where a turn of a loop takes up to five units of the second one.
-/

namespace Lox

open Run

variable {side : Side} {d : Detour} {K : List Bool} {w : List FrameId}

/-- What the first run evaluates with `n` units of fuel ends alike in the second one, or the one with
little fuel stops for want of it. -/
structure Follows (side : Side) (d : Detour) (n : Nat) : Prop where
  eval : ∀ {k K w e e'}, side.Fuels n k → e.Inlined d.Leads K e' → e.Proper →
    Run.Beside side d K (Value.Beside d) w (eval n e) (eval k e')
  evalAll : ∀ {k K w es es'}, side.Fuels n k → Expr.InlinedAll d.Leads K es es' →
    Expr.ProperAll es →
    Run.Beside side d K (fun w => List.Forall₂ (Value.Beside d w)) w (evalAll n es) (evalAll k es')
  call : ∀ {k K w v v' vs vs'} paren, side.Fuels n k → v.Beside d w v' →
    List.Forall₂ (Value.Beside d w) vs vs' →
    Run.Beside side d K (Value.Beside d) w (call n v paren vs) (call k v' paren vs')
  invoke : ∀ {k K w f f' vs vs'}, side.Fuels n k → f.Beside d w [] f' →
    List.Forall₂ (Value.Beside d w) vs vs' →
    Run.Beside side d K (Value.Beside d) w (invoke n f vs) (invoke k f' vs')
  exec : ∀ {k K w s s'}, side.Fuels n k → s.Inlined d.Leads K s' → s.Proper →
    (K.head? = some true → s.declared? = none) →
    Run.Beside side d K (Completion.Beside d) w (exec n s) (exec k s')
  execAll : ∀ {k K w body body'}, side.Fuels n k → Stmt.InlinedAll d.Leads K body body' →
    Stmt.ProperAll body → K.head? ≠ some true →
    Run.Beside side d K (Completion.Beside d) w (execAll n body) (execAll k body')
  iterate : ∀ {k K w condition condition' body body' increment increment'}, side.Fuels n k →
    (Stmt.loop condition body increment).Inlined d.Leads K (.loop condition' body' increment') →
    (Stmt.loop condition body increment).Proper →
    Run.Beside side d K (Completion.Beside d) w (iterate n condition body increment)
      (iterate k condition' body' increment')

namespace Follows

variable {n k : Nat} (hs : Follows side d n)
include hs

theorem eval_succ {e e' : Expr} (hn : side.Fuels n k) (h : e.Inlined d.Leads K e') (hp : e.Proper) :
    Run.Beside side d K (Value.Beside d) w (Run.eval (n + 1) e) (Run.eval (k + 1) e') := by
  have hfirst : Affecting Machine.Prints n := affecting n
  have hsecond : Affecting Machine.Prints k := affecting k
  cases h with
  | literal value =>
    refine .pure ?_
    cases value with
    | number x => exact .number x
    | string s => exact .string s
    | boolean b => exact .boolean b
    | nil => exact .nil
  | @grouping _ inner inner' h =>
    show Run.Beside side d K _ w (Run.eval n inner) (Run.eval k inner')
    exact hs.eval hn h hp
  | unary operator h =>
    refine (hs.eval hn h hp).bind (fun v => unary_affects operator v)
      (fun v => unary_affects operator v) fun w' _ v v' hv => ?_
    exact .of_steady (unary_computes rfl hv.resembles).steady
  | binary hl operator hr =>
    refine (hs.eval hn hl hp.1).bind (hfirst.rest_of_left operator _) (hsecond.rest_of_left operator _)
      fun w' hw v v' hv => ?_
    rw [afterLeft_eq operator.kind hv.resembles]
    cases afterLeft operator.kind v with
    | keepLeft => exact .pure hv
    | takeRight => exact hs.eval hn hr hp.2
    | combine =>
      refine (hs.eval hn hr hp.2).bind (fun u => binary_affects operator v u)
        (fun u => binary_affects operator v' u) fun w'' hw' u u' hu => ?_
      exact .of_steady (binary_computes rfl hv.resembles hu.resembles).steady
  | binaryError operator h => exact .of_steady (fail_steady operator _)
  | conditional hc ht hf =>
    refine (hs.eval hn hc hp.1).bind (hfirst.rest_of_condition _ _) (hsecond.rest_of_condition _ _)
      fun w' hw v v' hv => ?_
    rw [hv.resembles.isTruthy]
    by_cases htruthy : v.isTruthy = true
    · rw [if_pos htruthy, if_pos htruthy]
      exact hs.eval hn ht hp.2.1
    · rw [if_neg htruthy, if_neg htruthy]
      exact hs.eval hn hf hp.2.2
  | «variable» ref hr => exact .of_steady (lookUp_steady hr)
  | assign target hr hv =>
    have hrest (v : Value) : Affects Machine.Prints (do Run.assign target v; pure v) :=
      (assign_affects target v).bind fun _ => .pure v
    refine (hs.eval hn hv hp.2).bind hrest hrest fun w' hw v v' hv => ?_
    exact .bind_steady (assign_steady hr hv) fun w'' hw' _ _ _ => .pure (hv.mono (.refl d) hw')
  | call hc paren ha =>
    have hrest {j : Nat} (hj : Affecting Machine.Prints j) (arguments : List Expr) (v : Value) :
        Affects Machine.Prints (do Run.call j v paren (← Run.evalAll j arguments)) :=
      (hj.evalAll arguments).bind fun vs => hj.call v paren vs
    refine (hs.eval hn hc hp.1).bind (hrest hfirst _) (hrest hsecond _) fun w' hw v v' hv => ?_
    refine (hs.evalAll hn ha hp.2).bind (fun vs => hfirst.call v paren vs)
      (fun vs => hsecond.call v' paren vs) fun w'' hw' vs vs' hvs => ?_
    exact hs.call paren hn (hv.mono (.refl d) hw') hvs
  | get h name =>
    refine (hs.eval hn h hp).bind (fun v => property_affects v name)
      (fun v => property_affects v name) fun w' hw v v' hv => ?_
    exact .of_steady (property_steady name hv)
  | set ho name hv =>
    have hwrite (table : ObjectId) (v : Value) : Affects Machine.Prints
        (do access (.setProperty table name.lexeme v); pure v) :=
      (Affects.access _).bind fun _ => .pure v
    have hrest {j : Nat} (hj : Affecting Machine.Prints j) (value : Expr) (o : Value) :
        Affects Machine.Prints (do
          let table ← propertyTable o name
          let v ← Run.eval j value
          access (.setProperty table name.lexeme v)
          pure v) :=
      (propertyTable_affects o name).bind fun table => (hj.eval value).bind fun v => hwrite table v
    refine (hs.eval hn ho hp.1).bind (hrest hfirst _) (hrest hsecond _) fun w' hw o o' ho => ?_
    refine .bind_steady (propertyTable_steady name ho) fun w'' hw' table _ ht => ?_
    subst ht
    refine (hs.eval hn hv hp.2).bind (hwrite table) (hwrite table) fun w₃ hw₃ v v' hv => ?_
    refine .bind_steady (access_steady (Access.setProperty_beside table name.lexeme hv)) ?_
    exact fun w₄ hw₄ _ _ _ => .pure (hv.mono (.refl d) hw₄)
  | this ref hr => exact .of_steady (lookUp_steady hr)
  | super ref method hr => exact .of_steady (superMethod_steady hr method)
  | lambda h => exact .of_steady (closure_steady none h hp)

theorem evalAll_succ {es es' : List Expr} (hn : side.Fuels n k)
    (h : Expr.InlinedAll d.Leads K es es') (hp : Expr.ProperAll es) :
    Run.Beside side d K (fun w => List.Forall₂ (Value.Beside d w)) w (Run.evalAll (n + 1) es)
      (Run.evalAll (k + 1) es') := by
  cases h with
  | nil => exact .pure .nil
  | cons h hrest =>
    have hothers (j : Nat) (rest : List Expr) (v : Value) :
        Affects Machine.Prints (do return v :: (← Run.evalAll j rest)) :=
      ((affecting j).evalAll rest).bind fun vs => .pure _
    refine (hs.eval hn h hp.1).bind (hothers n _) (hothers k _) fun w' hw v v' hv => ?_
    refine (hs.evalAll hn hrest hp.2).bind (fun _ => .pure _) (fun _ => .pure _)
      fun w'' hw' vs vs' hvs => ?_
    exact .pure (.cons (hv.mono (.refl d) hw') hvs)

theorem call_succ {v v' : Value} (hn : side.Fuels n k) (hv : v.Beside d w v') (paren : Token)
    {vs vs' : List Value} (hvs : List.Forall₂ (Value.Beside d w) vs vs') :
    Run.Beside side d K (Value.Beside d) w (Run.call (n + 1) v paren vs)
      (Run.call (k + 1) v' paren vs') := by
  cases hv with
  | native f =>
    unfold Run.call
    simp only
    rw [hvs.length_eq]
    exact .bind_steady (checkArity_steady paren _ _) fun _ _ _ _ _ => .of_steady (native_steady f)
  | function hf =>
    unfold Run.call
    simp only
    rw [hvs.length_eq, hf.arity]
    refine .bind_steady (checkArity_steady paren _ _) fun w' hw _ _ _ => ?_
    exact hs.invoke hn (hf.mono (.refl d) hw) (hvs.imp fun _ _ => Value.Beside.mono (.refl d) hw)
  | @«class» c c' hc =>
    unfold Run.call
    simp only
    rw [hvs.length_eq, hc.arity]
    refine .bind_steady (checkArity_steady paren _ _) fun w₁ hw₁ _ _ _ => ?_
    have hobject := @Access.newObject_beside d w₁ ∅ ∅ fun _ => .none
    refine .bind_steady (access_steady hobject) fun w₂ hw₂ id _ hid => ?_
    subst hid
    have hc₂ := hc.mono (.refl d) (hw₁.trans hw₂)
    have hvs₂ := hvs.imp fun _ _ => Value.Beside.mono (.refl d) (hw₁.trans hw₂)
    have hinitializer := hc₂.initializer?
    generalize c.initializer? = f? at hinitializer ⊢
    generalize c'.initializer? = f?' at hinitializer ⊢
    cases hinitializer with
    | none => exact .pure (.instance ⟨rfl, hc₂⟩)
    | some hf =>
      have hreceiver : Instance.Beside d w₂ ⟨id, c⟩ ⟨id, c'⟩ := ⟨rfl, hc₂⟩
      have hbound := Access.bindMethod_beside hf hreceiver
      refine .bind_steady (access_steady hbound) fun w₃ hw₃ f f' hf => ?_
      refine (hs.invoke hn hf (hvs₂.imp fun _ _ => Value.Beside.mono (.refl d) hw₃)).bind
        (fun _ => .pure _) (fun _ => .pure _) fun w₄ hw₄ _ _ _ => ?_
      exact .pure (.instance ⟨rfl, hc₂.mono (.refl d) (hw₃.trans hw₄)⟩)
  | _ => exact .of_steady (fail_steady paren _)

theorem invoke_succ {f f' : Closure} (hn : side.Fuels n k) (hf : f.Beside d w [] f')
    {vs vs' : List Value} (hvs : List.Forall₂ (Value.Beside d w) vs vs') :
    Run.Beside side d K (Value.Beside d) w (Run.invoke (n + 1) f vs) (Run.invoke (k + 1) f' vs') := by
  obtain ⟨K', henvironment, hinlined, _⟩ := hf.function
  refine .bind_steady (access_steady (callEnvironment_beside henvironment hf.params hvs))
    fun w' hw inner inner' hinner => ?_
  have hbody : Run.Beside side d (false :: K') (Completion.Beside d) w'
      (Run.execAll n f.function.body) (Run.execAll k f'.function.body) := by
    have hproper := hf.proper
    generalize f.function = g at hinlined hproper ⊢
    generalize f'.function = g' at hinlined ⊢
    cases hinlined with
    | mk params hb => exact hs.execAll hn hb hproper.2 (by simp)
  refine (hbody.within hinner).bind (fun r => callResult_affects f r)
    (fun r => callResult_affects f' r) fun w'' hw' r r' hr => ?_
  exact .of_steady (callResult_steady (hf.mono (.refl d) (hw.trans hw')) hr)

theorem exec_succ {s s' : Stmt} (hn : side.Fuels n k) (h : s.Inlined d.Leads K s') (hp : s.Proper)
    (hd : K.head? = some true → s.declared? = none) :
    Run.Beside side d K (Completion.Beside d) w (Run.exec (n + 1) s) (Run.exec (k + 1) s') := by
  have hfirst : Affecting Machine.Prints n := affecting n
  have hsecond : Affecting Machine.Prints k := affecting k
  cases h with
  | expression h =>
    exact (hs.eval hn h hp).bind (fun _ => .pure _) (fun _ => .pure _) fun _ _ _ _ _ => .pure .normal
  | print h =>
    have hrest (v : Value) : Affects Machine.Prints (do Run.print v; pure Completion.normal) :=
      (Affects.print v).bind fun _ => .pure _
    refine (hs.eval hn h hp).bind hrest hrest fun w' hw v v' hv => ?_
    exact .bind_steady (print_steady hv) fun _ _ _ _ _ => .pure .normal
  | var name h =>
    have hK := mt hd (Option.some_ne_none _)
    cases h with
    | none => exact .bind_steady (define_steady hK name .none) fun _ _ _ _ _ => .pure .normal
    | some h =>
      have hrest (v : Value) : Affects Machine.Prints
          (do Run.define name (some v); pure Completion.normal) :=
        (define_affects name (some v)).bind fun _ => .pure _
      refine (hs.eval hn h hp.2).bind hrest hrest fun w' hw v v' hv => ?_
      exact .bind_steady (define_steady hK name (.some hv)) fun _ _ _ _ _ => .pure .normal
  | block h =>
    refine .bind_steady environment_steady fun w' hw e e' he => ?_
    refine .bind_steady (access_steady (Access.child_beside he)) fun w'' hw' inner inner' hinner => ?_
    exact (hs.execAll hn h hp (by simp)).within hinner
  | @ite _ _ _ t t' f f' hc ht hf =>
    refine (hs.eval hn hc hp.1).bind (hfirst.rest_of_test t f) (hsecond.rest_of_test t' f')
      fun w' hw v v' hv => ?_
    rw [hv.resembles.isTruthy]
    by_cases htruthy : v.isTruthy = true
    · rw [if_pos htruthy, if_pos htruthy]
      exact hs.exec hn ht hp.2.1.2 fun _ => hp.2.1.1
    · rw [if_neg htruthy, if_neg htruthy]
      cases hf with
      | none => exact .pure .normal
      | some h => exact hs.exec hn h hp.2.2.2 fun _ => hp.2.2.1
  | @loop _ c c' body body' i i' hc hb hi =>
    show Run.Beside side d K _ w (Run.iterate n c body i) (Run.iterate k c' body' i')
    exact hs.iterate hn (.loop hc hb hi) hp
  | @increment _ c c' body body' e e' hgoes hc hb he =>
    show Run.Beside side d K _ w (Run.iterate n c body (some e))
      (Run.iterate k c' (.block [body', .expression e']) none)
    exact hs.iterate hn (.increment hgoes hc hb he) hp
  | «break» _ => exact .pure .break
  | «continue» _ => exact .pure .continue
  | breakError keyword => exact .of_steady (fail_steady keyword _)
  | continueError keyword => exact .of_steady (fail_steady keyword _)
  | function name h =>
    refine .bind_steady (closure_steady (some name.lexeme) h hp.2) fun w' hw v v' hv => ?_
    exact .bind_steady (define_steady (mt hd (Option.some_ne_none _)) name (.some hv)) fun _ _ _ _ _ => .pure .normal
  | «return» _ h =>
    cases h with
    | none => exact .pure (.return .nil)
    | some h =>
      exact (hs.eval hn h hp).bind (fun _ => .pure _) (fun _ => .pure _) fun _ _ _ _ hv =>
        .pure (.return hv)
  | «class» name superclass? h hown hstatics =>
    refine .bind_steady (superclass_steady h) fun w' hw sup sup' hsup => ?_
    obtain ⟨hsup, hmarks⟩ := hsup
    rw [← hmarks] at hown hstatics
    refine .bind_steady environment_steady fun w'' hw' e e' he => ?_
    have hdefine := defineClass_beside he (mt hd (Option.some_ne_none _)) name
      (rel_mono (fun _ _ => Class.Beside.mono (.refl d) hw') hsup) hown hp.2.2.1 hstatics hp.2.2.2
    exact .bind_steady (access_steady hdefine) fun _ _ _ _ _ => .pure .normal

theorem execAll_succ {body body' : List Stmt} (hn : side.Fuels n k)
    (h : Stmt.InlinedAll d.Leads K body body') (hp : Stmt.ProperAll body)
    (hK : K.head? ≠ some true) :
    Run.Beside side d K (Completion.Beside d) w (Run.execAll (n + 1) body)
      (Run.execAll (k + 1) body') := by
  cases h with
  | nil => exact .pure .normal
  | cons h hrest =>
    refine (hs.exec hn h hp.1 fun htrue => absurd htrue hK).bind ((affecting n).rest_of_first _)
      ((affecting k).rest_of_first _) fun w' hw r r' hr => ?_
    cases hr with
    | normal => exact hs.execAll hn hrest hp.2 hK
    | «return» hv => exact .pure (.return hv)
    | «break» => exact .pure .break
    | «continue» => exact .pure .continue

omit hs in
theorem bodyWithIncrement_affects {R : Machine → Machine → Prop} [Effect R] (n : Nat) (body : Stmt)
    (e : Expr) : Affects R (bodyWithIncrement n body e) := by
  refine ((affecting n).exec body).bind fun r => ?_
  cases r with
  | normal => exact ((affecting n).eval e).bind fun _ => .pure _
  | _ => exact .pure _

/-- A turn with the increment behind the body, and the same turn as a block. -/
theorem bodyWithIncrement_beside {body body' : Stmt} {e e' : Expr} (hn : side.Spares 4 n k)
    (hb : body.Inlined d.Leads (true :: K) body') (he : e.Inlined d.Leads (true :: K) e')
    (hdeclared : body.declared? = none) (hpb : body.Proper) (hpe : e.Proper) :
    Run.Beside side d K (Completion.Beside d) w (bodyWithIncrement n body e)
      (Run.exec k (.block [body', .expression e'])) := by
  have hturn : Affects Machine.Prints (bodyWithIncrement n body e) := bodyWithIncrement_affects n body e
  have hincrement : Affects Machine.Prints (do let _ ← Run.eval n e; pure Completion.normal) :=
    ((affecting n).eval e).bind fun _ => .pure _
  rcases hn.succ with ⟨rfl, rfl⟩ | ⟨k₁, rfl, hn₁⟩
  · exact .exhausted_second hturn
  refine .withinAdded ?_ (bodyWithIncrement_affects n body e)
  rcases hn₁.succ with ⟨rfl, rfl⟩ | ⟨k₂, rfl, hn₂⟩
  · exact .exhausted_second hturn
  refine (hs.exec hn₂.fuels hb hpb fun _ => hdeclared).bind (fun r => ?_) ((affecting k₂).rest_of_first _)
    fun w' hw r r' hr => ?_
  · cases r with
    | normal => exact hincrement
    | _ => exact .pure _
  cases hr with
  | «return» hv => exact .pure (.return hv)
  | «break» => exact .pure .break
  | «continue» => exact .pure .continue
  | normal =>
    rcases hn₂.succ with ⟨rfl, rfl⟩ | ⟨k₃, rfl, hn₃⟩
    · exact .exhausted_second hincrement
    rcases hn₃.succ with ⟨rfl, rfl⟩ | ⟨k₄, rfl, hn₄⟩
    · exact .exhausted_second hincrement
    rw [execAll_expression]
    exact (hs.eval hn₄.fuels he hpe).bind (fun _ => .pure _) (fun _ => .pure _) fun _ _ _ _ _ =>
      .pure .normal

omit hs in
theorem turn_rest {p : Run Completion} {turn : Completion → Run Completion}
    (hp : Affects Machine.Prints p) (hturn : ∀ r, Affects Machine.Prints (turn r)) (v : Value) :
    Affects Machine.Prints (if v.isTruthy = true then p >>= turn else pure .normal) := by
  split
  · exact hp.bind hturn
  · exact .pure _

theorem iterate_succ {condition condition' : Expr} {body body' : Stmt}
    {increment increment' : Option Expr} (hn : side.Spares 4 n k)
    (h : (Stmt.loop condition body increment).Inlined d.Leads K (.loop condition' body' increment'))
    (hp : (Stmt.loop condition body increment).Proper) :
    Run.Beside side d K (Completion.Beside d) w (Run.iterate (n + 1) condition body increment)
      (Run.iterate (k + 1) condition' body' increment') := by
  have hnext : ∀ {w : List FrameId}, Run.Beside side d K (Completion.Beside d) w
      (Run.iterate n condition body increment) (Run.iterate k condition' body' increment') :=
    hs.iterate hn.fuels h hp
  have hturn {j : Nat} (hj : Affecting Machine.Prints j) (c : Expr) (b : Stmt) (i : Option Expr)
      (r : Completion) : Affects Machine.Prints (afterTurn (Run.iterate j c b i) r) := by
    cases r with
    | «break» | «return» => exact .pure _
    | normal | «continue» => exact hj.iterate c b i
  have hfirst : Affecting Machine.Prints n := affecting n
  have hsecond : Affecting Machine.Prints k := affecting k
  cases h with
  | loop hc hb hi =>
    refine (hs.eval hn.fuels hc hp.1).bind (turn_rest (hfirst.exec body) (hfirst.rest_of_body _ _ _))
      (turn_rest (hsecond.exec body') (hsecond.rest_of_body _ _ _)) fun w' hw v v' hv => ?_
    rw [hv.resembles.isTruthy]
    by_cases htruthy : v.isTruthy = true
    · rw [if_pos htruthy, if_pos htruthy]
      refine (hs.exec hn.fuels hb hp.2.1.2 fun _ => hp.2.1.1).bind (hfirst.rest_of_body _ _ _)
        (hsecond.rest_of_body _ _ _) fun w'' hw' r r' hr => ?_
      cases hr with
      | «return» hv => exact .pure (.return hv)
      | «break» => exact .pure .normal
      | normal | «continue» =>
        cases hi with
        | none => exact hnext
        | some h =>
          exact (hs.eval hn.fuels h hp.2.2).bind (fun _ => hfirst.iterate _ _ _)
            (fun _ => hsecond.iterate _ _ _) fun _ _ _ _ _ => hnext
    · rw [if_neg htruthy, if_neg htruthy]
      exact .pure .normal
  | @increment _ _ _ _ blockBody e e' hgoes hc hb he =>
    rw [iterate_some hgoes, iterate_none]
    have hblock : Affects Machine.Prints (Run.exec k (.block [blockBody, .expression e'])) :=
      hsecond.exec _
    have hincrement : Affects Machine.Prints (bodyWithIncrement n body e) :=
      bodyWithIncrement_affects n body e
    refine (hs.eval hn.fuels hc hp.1).bind (turn_rest hincrement (hturn hfirst _ _ _))
      (turn_rest hblock (hturn hsecond _ _ _)) fun w' hw v v' hv => ?_
    rw [hv.resembles.isTruthy]
    by_cases htruthy : v.isTruthy = true
    · rw [if_pos htruthy, if_pos htruthy]
      refine (hs.bodyWithIncrement_beside hn hb he hp.2.1.1 hp.2.1.2 hp.2.2).bind (hturn hfirst _ _ _)
        (hturn hsecond _ _ _) fun w'' hw' r r' hr => ?_
      cases hr with
      | «return» hv => exact .pure (.return hv)
      | «break» => exact .pure .normal
      | normal | «continue» => exact hnext
    · rw [if_neg htruthy, if_neg htruthy]
      exact .pure .normal

end Follows

/-- Whatever the fuel is, the two runs keep together. -/
theorem follows (side : Side) (d : Detour) (n : Nat) : Follows side d n := by
  induction n with
  | zero =>
    have hstop {α β : Type} {A : List FrameId → α → β → Prop} {K : List Bool} {w : List FrameId}
        {k : Nat} {q : Nat → Run β} (hn : side.Fuels 0 k) (hq : q 0 = outOfFuel)
        (hprints : ∀ k, Affects Machine.Prints (q k)) :
        Run.Beside side d K A w outOfFuel (q k) := by
      cases side with
      | first => exact .exhausted_first (hprints k)
      | second =>
        obtain rfl := Nat.le_zero.1 hn
        rw [hq]
        exact .exhausted_second (.outOfFuel)
    have hprints (k : Nat) : Affecting Machine.Prints k := affecting k
    exact ⟨fun hn _ _ => hstop hn rfl fun k => (hprints k).eval _,
      fun hn _ _ => hstop hn rfl fun k => (hprints k).evalAll _,
      fun paren hn _ _ => hstop hn rfl fun k => (hprints k).call _ paren _,
      fun hn _ _ => hstop hn rfl fun k => (hprints k).invoke _ _,
      fun hn _ _ _ => hstop hn rfl fun k => (hprints k).exec _,
      fun hn _ _ _ => hstop hn rfl fun k => (hprints k).execAll _,
      fun hn _ _ => hstop hn rfl fun k => (hprints k).iterate _ _ _⟩
  | succ n ih =>
    have hprints : Affecting Machine.Prints (n + 1) := affecting (n + 1)
    constructor
    · intro k K w e e' hn h hp
      rcases hn.succ with ⟨rfl, rfl⟩ | ⟨j, rfl, hj⟩
      · exact .exhausted_second (hprints.eval _)
      · exact ih.eval_succ hj.fuels h hp
    · intro k K w es es' hn h hp
      rcases hn.succ with ⟨rfl, rfl⟩ | ⟨j, rfl, hj⟩
      · exact .exhausted_second (hprints.evalAll _)
      · exact ih.evalAll_succ hj.fuels h hp
    · intro k K w v v' vs vs' paren hn hv hvs
      rcases hn.succ with ⟨rfl, rfl⟩ | ⟨j, rfl, hj⟩
      · exact .exhausted_second (hprints.call _ paren _)
      · exact ih.call_succ hj.fuels hv paren hvs
    · intro k K w f f' vs vs' hn hf hvs
      rcases hn.succ with ⟨rfl, rfl⟩ | ⟨j, rfl, hj⟩
      · exact .exhausted_second (hprints.invoke _ _)
      · exact ih.invoke_succ hj.fuels hf hvs
    · intro k K w s s' hn h hp hd
      rcases hn.succ with ⟨rfl, rfl⟩ | ⟨j, rfl, hj⟩
      · exact .exhausted_second (hprints.exec _)
      · exact ih.exec_succ hj.fuels h hp hd
    · intro k K w body body' hn h hp hK
      rcases hn.succ with ⟨rfl, rfl⟩ | ⟨j, rfl, hj⟩
      · exact .exhausted_second (hprints.execAll _)
      · exact ih.execAll_succ hj.fuels h hp hK
    · intro k K w c c' b b' i i' hn h hp
      rcases hn.succ with ⟨rfl, rfl⟩ | ⟨j, rfl, hj⟩
      · exact .exhausted_second (hprints.iterate _ _ _)
      · exact ih.iterate_succ hj h hp

end Lox
