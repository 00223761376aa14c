import AmbScript.Value.Basic

/-!
# Frames

A scope at run time: the names bound in it and the frame around it. Names of a scope are there
from its start, as placeholders until their declaration is evaluated.
-/

namespace AmbScript

/-- What a name stands for. -/
inductive Slot
  /-- Declared, but not yet evaluated. -/
  | placeholder
  | value (v : Value)
deriving Inhabited

structure Binding where
  slot : Slot
  isConst : Bool
deriving Inhabited

namespace Binding

def placeholder : Binding := ⟨.placeholder, false⟩

def ofValue (v : Value) (isConst : Bool) : Binding := ⟨.value v, isConst⟩

/-- The value, once there is one. -/
def value? (b : Binding) : Option Value :=
  match b.slot with
  | .placeholder => none
  | .value v => some v

end Binding

structure Frame where
  /-- What kind of scope it is, or the name of the function called. -/
  name : String
  parent : Option FrameId
  /-- Where the call stands that made the frame. -/
  callSite : Option Span
  bindings : List (String × Binding)
deriving Inhabited

namespace Frame

def binding? (f : Frame) (name : String) : Option Binding := f.bindings.lookup name

/-- The bindings with the first one of `name` replaced, or with a new one. -/
def insertBinding (name : String) (b : Binding) : List (String × Binding) → List (String × Binding)
  | [] => [(name, b)]
  | (n, c) :: rest => if n = name then (name, b) :: rest else (n, c) :: insertBinding name b rest

/-- The bindings without those of `name`. -/
def eraseBinding (name : String) (bs : List (String × Binding)) : List (String × Binding) :=
  bs.filter fun b => b.1 ≠ name

/-- Binds `name` to `b`, or removes it. -/
def put (f : Frame) (name : String) (b : Option Binding) : Frame :=
  match b with
  | some b => { f with bindings := insertBinding name b f.bindings }
  | none => { f with bindings := eraseBinding name f.bindings }

theorem lookup_insertBinding (name : String) (b : Binding) (bs : List (String × Binding))
    (n : String) :
    (insertBinding name b bs).lookup n = if n = name then some b else bs.lookup n := by
  induction bs with
  | nil => grind [insertBinding]
  | cons head rest ih => grind [insertBinding]

theorem lookup_eraseBinding (name : String) (bs : List (String × Binding)) (n : String) :
    (eraseBinding name bs).lookup n = if n = name then none else bs.lookup n := by
  induction bs with
  | nil => simp [eraseBinding]
  | cons head rest ih => grind [eraseBinding]

theorem binding?_put (f : Frame) (name : String) (b : Option Binding) (n : String) :
    (f.put name b).binding? n = if n = name then b else f.binding? n := by
  cases b with
  | none => exact lookup_eraseBinding name f.bindings n
  | some b => exact lookup_insertBinding name b f.bindings n

end Frame

end AmbScript
