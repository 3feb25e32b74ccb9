import WordC.Variable
/-!
# Scopes

The variables visible at a point of a source text. File-scope variables are
always visible; a scope opened later hides them, and hides the scopes opened
before it.
-/

namespace WordC

/-- Why a declaration is refused. -/
inductive DeclarationError where
  | redeclared (name : String)
  | redefined (name : String)
  | conflicting (name : String) (expected found : Nat)
  /-- The index of a table leads to a place where there is no function. -/
  | misplaced (name : String)
  deriving DecidableEq, Repr

/-- The wording of a declaration error. -/
def DeclarationError.message : DeclarationError → String
  | redeclared name => s!"redeclaration of `{name}` in the same scope"
  | redefined name => s!"redefinition of function `{name}`"
  | conflicting name expected found =>
    s!"conflicting declarations of `{name}`: {expected} vs {found} parameters"
  | misplaced name => s!"no function at the place of `{name}`"

/-- The variables of one scope, in the order of their declaration. -/
abbrev Scope := List Variable

/-- The variable a scope declares under a name. -/
def Scope.find? (s : Scope) (name : String) : Option Variable :=
  List.find? (fun v => v.name = name) s

/-- The open scopes: the file scope and, innermost first, those opened in it. -/
structure Scopes where
  file : Scope := []
  inner : List Scope := []
  deriving Repr

namespace Scopes

/-- Opens a scope. -/
def enter (s : Scopes) : Scopes :=
  { s with inner := [] :: s.inner }

/-- Closes the innermost scope. The file scope stays open. -/
def exit (s : Scopes) : Scopes :=
  { s with inner := s.inner.tail }

/-- The number of scopes opened in the file scope. -/
def depth (s : Scopes) : Nat :=
  s.inner.length

/-- Only the file scope is open. -/
def isFileScope (s : Scopes) : Bool :=
  s.inner.isEmpty

/-- Declares a variable in the innermost scope. Hiding a variable of an outer
scope is allowed. -/
def declare (s : Scopes) (v : Variable) : Except DeclarationError Scopes :=
  match s.inner with
  | [] =>
    if (s.file.find? v.name).isSome then .error (.redeclared v.name)
    else .ok { s with file := s.file ++ [v] }
  | scope :: outer =>
    if (scope.find? v.name).isSome then .error (.redeclared v.name)
    else .ok { s with inner := (scope ++ [v]) :: outer }

/-- The innermost variable of a name. -/
def find? (s : Scopes) (name : String) : Option Variable :=
  (s.inner ++ [s.file]).findSome? fun scope => scope.find? name

end Scopes

end WordC
