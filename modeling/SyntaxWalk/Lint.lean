import SyntaxWalk.Pass

/-!
# Lints

Ready-made handler sets, chosen by name. `noDebugger` warns on every `debugger` statement, `noWith`
refuses `with` statements, and `shadowing` warns on a declaration whose name is bound in a scope
around it. The shadowing lint keeps two lists of names in the context of every scope: those bound
around it and those bound in it.
-/

namespace SyntaxWalk

inductive Lint where
  | noDebugger
  | noWith
  | shadowing
  deriving DecidableEq, Inhabited

namespace Lint

variable {υ : Type}

def all : List Lint := [.noDebugger, .noWith, .shadowing]

def name : Lint → String
  | .noDebugger => "no-debugger"
  | .noWith => "no-with"
  | .shadowing => "shadowing"

def ofName? (name : String) : Option Lint := all.find? fun lint => lint.name = name

def warnDebugger : Handler υ := fun n _ => do
  Script.addWarning n "unexpected 'debugger' statement"
  return .keep n

def refuseWith : Handler υ := fun n _ => do
  return .fail n (← Script.syntaxError n "'with' statements are not allowed")

namespace Shadowing

def outerKey : String := "shadowing.outer"

def localKey : String := "shadowing.local"

def namesUnder (context : Context) (key : String) : List String :=
  match context.getAs key Json.strings? with
  | .found names => names
  | _ => []

def withNames (context : Context) (key : String) (names : List String) : Context :=
  context.insert key (.array (names.map Json.string))

def addName (names : List String) (name : String) : List String :=
  if names.contains name then names else names ++ [name]

/-- The context of a new scope: what was bound in the scope around it is now outside. -/
def enterScope (context : Context) : Context :=
  let outer := (namesUnder context localKey).foldl addName (namesUnder context outerKey)
  withNames (withNames context outerKey outer) localKey []

def bind (context : Context) (name : String) : Context :=
  let names := namesUnder context localKey
  if names.contains name then context else withNames context localKey (names ++ [name])

def isShadowing (context : Context) (name : String) : Bool :=
  (namesUnder context outerKey).contains name

def message (name : String) : String := "'" ++ name ++ "' shadows a binding from an enclosing scope"

def bindings (pattern : Node) : List Node :=
  if pattern.kind = "Identifier" then
    if (pattern.string? "name").isSome then [pattern] else []
  else if pattern.kind = "AssignmentPattern" then
    match _ : pattern.child? "left" with
    | some left => bindings left
    | none => []
  else if pattern.kind = "RestElement" then
    match _ : pattern.child? "argument" with
    | some argument => bindings argument
    | none => []
  else if pattern.kind = "ArrayPattern" then
    (pattern.children "elements").attach.flatMap fun ⟨element, _⟩ => bindings element
  else if pattern.kind = "ObjectPattern" then
    (pattern.children "properties").attach.flatMap fun ⟨property, _⟩ =>
      match _ : property.child? "value" with
      | some v => bindings v
      | none => bindings property
  else []
termination_by pattern.count
decreasing_by
  · exact Node.count_lt_of_child? ‹_›
  · exact Node.count_lt_of_child? ‹_›
  · exact Node.count_lt_of_mem_children ‹_›
  · exact Nat.lt_trans (Node.count_lt_of_child? ‹_›) (Node.count_lt_of_mem_children ‹_›)
  · exact Node.count_lt_of_mem_children ‹_›

def declare (identifier : Node) : Script υ Unit := do
  match identifier.string? "name", ← Script.context with
  | some name, some context =>
    Script.modifyContext (bind · name)
    if isShadowing context name then Script.addWarning identifier (message name)
  | _, _ => return ()

def declareAll : List Node → Script υ Unit
  | [] => return ()
  | identifier :: rest => do
    declare identifier
    declareAll rest

def declarePattern (pattern : Node) : Script υ Unit := declareAll (bindings pattern)

def declareId (n : Node) : Script υ Unit :=
  match n.child? "id" with
  | some id => declarePattern id
  | none => return ()

def enterDeclarator : Handler υ := fun n _ => do
  declareId n
  return .keep n

def enterFunction : Handler υ := fun n _ => do
  Script.openScope (functionScope n)
  declareAll ((n.children "params").flatMap bindings)
  return .keep n

def enterDeclaration : Handler υ := fun n parent => do
  declareId n
  enterFunction n parent

def scopeHook : ScopeHook υ := fun t memory => (t.context.map enterScope, memory)

theorem namesUnder_withNames_self (context : Context) (key : String) (names : List String) :
    namesUnder (withNames context key names) key = names := by
  have h : (names.map Json.string).mapM Json.string? = some names := by
    induction names with
    | nil => rfl
    | cons name rest ih => simp [List.mapM_cons, Json.string?, ih]
  simp [namesUnder, withNames, Context.getAs, NameMap.get?_insert, Json.strings?, h]

theorem mem_addName {names : List String} {name other : String} :
    other ∈ addName names name ↔ other ∈ names ∨ other = name := by
  unfold addName
  split <;> simp_all

end Shadowing

open Shadowing in
def handlers : Lint → HandlerSet υ
  | .noDebugger => HandlerSet.empty.withEnter "DebuggerStatement" warnDebugger
  | .noWith => HandlerSet.empty.withEnter "WithStatement" refuseWith
  | .shadowing =>
    HandlerSet.empty
      |>.withScopeEnter scopeHook
      |>.withEnter "VariableDeclarator" enterDeclarator
      |>.withEnter "FunctionDeclaration" enterDeclaration
      |>.withExit "FunctionDeclaration" Baseline.close
      |>.withEnter functionExpressionKind enterFunction
      |>.withExit functionExpressionKind Baseline.close
      |>.withEnter "ArrowFunctionExpression" enterFunction
      |>.withExit "ArrowFunctionExpression" Baseline.close

theorem ofName?_name (lint : Lint) : ofName? lint.name = some lint := by cases lint <;> decide

end Lint

end SyntaxWalk
