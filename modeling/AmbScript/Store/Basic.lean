import AmbScript.Store.Frame

/-!
# The store and its trail

All frames ever made, and a log of the bindings that were overwritten. Going back to an earlier
moment means undoing the log down to its length then. Frames younger than the last moment that
may be returned to are not logged: nothing refers to them once it is returned to.

* `Store.write` is the only way to change a binding, `Store.unwindTo` the only way to undo it.
* `Store.mark` notes a moment, so that the frames made before it are logged from then on.
-/

namespace AmbScript

/-- A binding that was overwritten. -/
structure Undo where
  frame : FrameId
  name : String
  previous : Option Binding
deriving Inhabited

structure Store where
  frames : Array Frame
  /-- The last change is the last entry. -/
  trail : Array Undo
  /-- Changes are logged in the frames below this one. -/
  watermark : FrameId
deriving Inhabited

namespace Store

/-- The store without frames. -/
def empty : Store := ⟨#[], #[], 0⟩

/-- The frame that is made next. -/
def nextFrame (s : Store) : FrameId := s.frames.size

/-- Makes the frame `s.nextFrame`. -/
def newFrame (s : Store) (name : String) (parent : Option FrameId) (callSite : Option Span) :
    Store :=
  { s with frames := s.frames.push ⟨name, parent, callSite, []⟩ }

/-- The binding of a name in this very frame. -/
def binding? (s : Store) (frame : FrameId) (name : String) : Option Binding :=
  s.frames[frame]? >>= (·.binding? name)

/-- The frame and binding that a name has from a frame on outwards. A frame is younger than the
frame around it, so the number of a frame bounds the frames around it. -/
def resolveLoop (s : Store) (name : String) : Nat → FrameId → Option (FrameId × Binding)
  | 0, _ => none
  | fuel + 1, id =>
    match s.frames[id]? with
    | none => none
    | some frame =>
      match frame.binding? name with
      | some b => some (id, b)
      | none => frame.parent.bind (resolveLoop s name fuel)

/-- The innermost frame that binds a name, from `frame` on outwards. -/
def resolve? (s : Store) (frame : FrameId) (name : String) : Option (FrameId × Binding) :=
  resolveLoop s name (frame + 1) frame

/-- At most `n` frames from `frame` on outwards. -/
def chainLoop (s : Store) : Nat → FrameId → List FrameId
  | 0, _ => []
  | fuel + 1, id => id :: ((s.frames[id]? >>= Frame.parent).map (chainLoop s fuel)).getD []

/-- The frames that names are looked up in, from `frame` on outwards. -/
def chain (s : Store) (frame : FrameId) : List FrameId := chainLoop s (frame + 1) frame

/-- Changes a binding without a log entry. -/
def put (s : Store) (frame : FrameId) (name : String) (b : Option Binding) : Store :=
  { s with frames := s.frames.modify frame (·.put name b) }

/-- Binds a name, and logs what it was bound to in a frame that may be returned to. -/
def write (s : Store) (frame : FrameId) (name : String) (b : Binding) : Store :=
  let undo : Undo := ⟨frame, name, s.binding? frame name⟩
  let s := s.put frame name (some b)
  -- a frame made since the last mark is out of reach once that moment is returned to
  if frame < s.watermark then { s with trail := s.trail.push undo } else s

/-- Logs changes in all frames made so far; the moment is known by the length of the trail. -/
def mark (s : Store) : Store := { s with watermark := max s.watermark s.nextFrame }

/-- Undoes the last logged change. -/
def undoLast (s : Store) : Store :=
  match s.trail.back? with
  | none => s
  | some u => { s with trail := s.trail.pop }.put u.frame u.name u.previous

/-- Undoes the last `n` logged changes. -/
def undo : Nat → Store → Store
  | 0, s => s
  | n + 1, s => undo n s.undoLast

/-- Undoes the logged changes beyond the first `n`. -/
def unwindTo (s : Store) (n : Nat) : Store := undo (s.trail.size - n) s

/-- Gives up every moment that could be returned to. -/
def forget (s : Store) : Store := { s with trail := #[], watermark := 0 }

end Store

end AmbScript
