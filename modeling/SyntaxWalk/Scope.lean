import SyntaxWalk.Node

/-!
# Scopes

One frame per open scope, each with a context of named values of its own. A new frame starts with a
copy of the context around it, so nothing written inside a scope is seen outside it.
-/

namespace SyntaxWalk

abbrev Context := NameMap Json

inductive Lookup (α : Type) where
  | absent
  | undecodable
  | found (a : α)
  deriving DecidableEq

def Context.getAs {α : Type} (context : Context) (key : String) (decode : Json → Option α) :
    Lookup α :=
  match context.get? key with
  | none => .absent
  | some v =>
    match decode v with
    | none => .undecodable
    | some a => .found a

namespace Scope

/-- The node that opened a scope, and how deep the walk was then. -/
structure Info where
  kind : String
  loc : Option Loc
  depth : Nat
  deriving DecidableEq

structure Frame where
  scope : Info
  context : Context

/-- What a push or a pop shows: the innermost frame after it, and the one before. -/
structure Transition where
  scope : Option Info := none
  context : Option Context := none
  previousScope : Option Info := none
  previousContext : Option Context := none

structure Stack where
  frames : List Frame := []

namespace Stack

def empty : Stack := {}

def current? (s : Stack) : Option Info := s.frames.head?.map Frame.scope

def context? (s : Stack) : Option Context := s.frames.head?.map Frame.context

def depth (s : Stack) : Nat := s.frames.length

def isEmpty (s : Stack) : Bool := s.frames.isEmpty

def outermostFirst (s : Stack) : List Frame := s.frames.reverse

/-- Opens a scope on a copy of the current context. -/
def push (s : Stack) (node : NodeInfo) (depth : Nat) : Stack :=
  ⟨⟨⟨node.kind, node.loc, depth⟩, s.context?.getD .empty⟩ :: s.frames⟩

def pop? (s : Stack) : Option (Frame × Stack) :=
  match s.frames with
  | [] => none
  | frame :: rest => some (frame, ⟨rest⟩)

def mapContext (s : Stack) (f : Context → Context) : Stack :=
  match s.frames with
  | [] => s
  | frame :: rest => ⟨{ frame with context := f frame.context } :: rest⟩

def mapContextAt (s : Stack) (index : Nat) (f : Context → Context) : Stack :=
  ⟨(s.outermostFirst.modify index fun frame =>
    { frame with context := f frame.context }).reverse⟩

def transition (after before : Stack) : Transition :=
  ⟨after.current?, after.context?, before.current?, before.context?⟩

theorem pop?_push (s : Stack) (node : NodeInfo) (depth : Nat) :
    (s.push node depth).pop? =
      some (⟨⟨node.kind, node.loc, depth⟩, s.context?.getD .empty⟩, s) := rfl

theorem depth_mapContext (s : Stack) (f : Context → Context) :
    (s.mapContext f).depth = s.depth := by
  obtain ⟨frames⟩ := s
  cases frames <;> rfl

end Stack

end Scope

end SyntaxWalk
