/-
# Lisplet.Store.Environment -- frames and the names they bind

An environment is a frame together with the frames above it.  A name means what the nearest frame of
the chain binds it to, and a definition writes to the innermost frame only.  The last frame of the
chain is the global one; it holds the warn policy of all frames below it.
-/

import Lisplet.Store

namespace Lisplet.Store

/-- The frames from `f` upwards, at most `n` of them. -/
def chainFrom (s : Store) : Nat → FrameId → List FrameId
  | 0, _ => []
  | n + 1, f =>
    f :: match (s.frame f).parent with
      | none => []
      | some parent => chainFrom s n parent

/-- The frames from `f` upwards, innermost first.  A parent is older than its child, so there are no
more than the store has. -/
def chain (s : Store) (f : FrameId) : List FrameId := s.chainFrom (s.frames.size + 1) f

/-- What a name means in an environment. -/
def lookup (s : Store) (f : FrameId) (name : String) : Option Value :=
  (s.chain f).findSome? fun g => (s.frame g).bindings.find? name

/-- The global frame of an environment. -/
def root (s : Store) (f : FrameId) : FrameId := (s.chain f).getLastD f

/-- The warn policy of an environment. -/
def policy (s : Store) (f : FrameId) : WarnPolicy := (s.frame (s.root f)).policy

/-- Set the warn policy of an environment and of all that share its global frame. -/
def setPolicy (f : FrameId) (policy : WarnPolicy) (s : Store) : Store :=
  { s with frames := s.frames.modify (s.root f).index fun frame => { frame with policy } }

/-- Bind a name in the innermost frame. -/
def define (f : FrameId) (name : String) (v : Value) (s : Store) : Store :=
  { s with frames := s.frames.modify f.index fun frame =>
      { frame with bindings := frame.bindings.insert name v } }

/-- Bind a name to a primitive, which then knows its name. -/
def definePrimitive (f : FrameId) (name : String) (p : Primitive) (s : Store) : Store :=
  s.define f name ((Value.native p).withBound name)

/-- A new frame below `parent` that binds `params` to `args` one by one.  Of a repeated parameter the
last counts, and what is left over on either side is dropped. -/
def extend (parent : FrameId) (params : List String) (args : List Value) (s : Store) :
    FrameId × Store :=
  s.newFrame { bindings := .ofList (params.zip args), parent := some parent }

/-- A new global frame without bindings. -/
def newGlobal (s : Store) : FrameId × Store := s.newFrame {}

/-- Bind every primitive. -/
def definePrimitives (f : FrameId) (s : Store) : Store :=
  Primitive.bindings.foldl (fun s b => s.definePrimitive f b.1 b.2) s

end Lisplet.Store
