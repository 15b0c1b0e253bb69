import Lox.Heap.Access

namespace Lox

/-- An operation on environments that are known by handles. -/
inductive ScopeOperation where
  | create
  | child (handle : Nat)
  | copy (handle : Nat)
  | enclosing (handle : Nat)
  | ancestor (handle distance : Nat)
  | define (handle : Nat) (name : Token) (value : Option Value)
  | bind (handle : Nat) (name : String) (value : Value)
  | assign (handle : Nat) (name : Token) (value : Value)
  | assignAt (handle distance : Nat) (name : Token) (value : Value)
  | get (handle : Nat) (name : Token)
  | getAt (handle distance : Nat) (name : Token)

inductive ScopeAnswer where
  | handle (number : Option Nat)
  | done
  | value (v : Value)
  | failed (e : RuntimeError)
  | unknownHandle

/-- A heap with the environments that have handles, the first one first. -/
structure Workspace where
  heap : Heap
  handles : Array Environment

namespace Workspace

/-- One handle, for a new outermost scope. -/
def initial : Workspace :=
  let (environment, heap) := Heap.empty.newFrame []
  ⟨heap, #[environment]⟩

/-- Gives an environment the next handle. -/
def keep (w : Workspace) (e : Environment) : ScopeAnswer × Workspace :=
  (.handle w.handles.size, { w with handles := w.handles.push e })

def keep? (w : Workspace) : Option Environment → ScopeAnswer × Workspace
  | some e => w.keep e
  | none => (.handle none, w)

def access {α : Type} (action : Access α) (answer : α → ScopeAnswer) (w : Workspace) :
    ScopeAnswer × Workspace :=
  match action w.heap with
  | .ok a heap => (answer a, { w with heap })
  | .error e heap => (.failed e, { w with heap })

/-- Goes on with the environment of a handle. -/
def at? (w : Workspace) (handle : Nat) (next : Environment → ScopeAnswer × Workspace) :
    ScopeAnswer × Workspace :=
  match w.handles[handle]? with
  | some e => next e
  | none => (.unknownHandle, w)

def apply (w : Workspace) : ScopeOperation → ScopeAnswer × Workspace
  | .create =>
    let (e, heap) := w.heap.newFrame []
    keep { w with heap } e
  | .child handle => w.at? handle fun e =>
    let (inner, heap) := w.heap.newFrame e.frames
    keep { w with heap } inner
  | .copy handle => w.at? handle w.keep
  | .enclosing handle => w.at? handle fun e => w.keep? e.enclosing?
  | .ancestor handle distance => w.at? handle fun e => w.keep? (e.ancestor? distance)
  | .define handle name value => w.at? handle fun e => w.access (.define e name value) fun _ => .done
  | .bind handle name value => w.at? handle fun e => w.access (.bind e name value) fun _ => .done
  | .assign handle name value => w.at? handle fun e => w.access (.assign e name value) fun _ => .done
  | .assignAt handle distance name value => w.at? handle fun e =>
    w.access (.assignAt e distance name value) fun _ => .done
  | .get handle name => w.at? handle fun e => w.access (.get e name) .value
  | .getAt handle distance name => w.at? handle fun e => w.access (.getAt e distance name) .value

def applyAll (w : Workspace) : List ScopeOperation → List ScopeAnswer × Workspace
  | [] => ([], w)
  | o :: rest =>
    let (answer, w) := w.apply o
    let (answers, w) := w.applyAll rest
    (answer :: answers, w)

end Workspace

end Lox
