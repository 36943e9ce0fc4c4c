import SyntaxWalk.Pass.HandlerSet

/-!
# Baseline scopes

The handlers every composed set starts from: a program opens the outermost scope, a function
expression one on its body. A set that defines one of these keys takes it over, and then has to keep
the scopes balanced itself.
-/

namespace SyntaxWalk

def programKind : String := "Program"

def functionExpressionKind : String := "FunctionExpression"

/-- The node a function's scope is named after: its body, or the function without one. -/
def functionScope (n : Node) : Node := (n.child? "body").getD n

namespace Baseline

variable {υ : Type}

def openProgram : Handler υ := fun n _ => do
  Script.openScope n
  return .keep n

def openFunction : Handler υ := fun n _ => do
  Script.openScope (functionScope n)
  return .keep n

def close : Handler υ := fun n _ => do
  let _ ← Script.closeScope
  return .keep n

end Baseline

def HandlerSet.baseline {υ : Type} : HandlerSet υ :=
  HandlerSet.empty
    |>.withEnter programKind Baseline.openProgram
    |>.withExit programKind Baseline.close
    |>.withEnter functionExpressionKind Baseline.openFunction
    |>.withExit functionExpressionKind Baseline.close

def HandlerSet.compose {υ : Type} (sets : List (HandlerSet υ)) : HandlerSet υ :=
  sets.foldl merge baseline

theorem functionScope_of_body {n body : Node} (h : n.child? "body" = some body) :
    functionScope n = body := by
  simp [functionScope, h]

end SyntaxWalk
