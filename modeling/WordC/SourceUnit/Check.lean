import WordC.SourceUnit.Read
import WordC.Text.Numeral
/-!
# Checking calls

Every call must reach a function of the unit or of a library with its number of
arguments, libraries must not contradict the unit, and the program must begin
somewhere: with a defined function `main` without parameters.
-/

namespace WordC

/-- A function supplied by a hand-written assembly library. -/
structure LibraryFunction where
  name : String
  arity : Nat
  deriving DecidableEq, Repr

/-- Why a text does not name a library function. -/
inductive LibraryFunctionError where
  | missingSlash (text : String)
  | badArity (text : String)
  | missingName (text : String)
  deriving DecidableEq, Repr

/-- The wording of a refused library function. -/
def LibraryFunctionError.message : LibraryFunctionError → String
  | missingSlash text => s!"expected NAME/ARITY, got `{text}`"
  | badArity text => s!"invalid arity in `{text}`"
  | missingName text => s!"missing name in `{text}`"

/-- Reads a name and a number of arguments, separated by the first slash. -/
def LibraryFunction.parse (text : String) : Except LibraryFunctionError LibraryFunction :=
  let name := text.toList.takeWhile (· ≠ '/')
  match text.toList.drop name.length with
  | [] => .error (.missingSlash text)
  | _ :: arity =>
    match Text.natural? UInt64.size arity with
    | none => .error (.badArity text)
    | some arity =>
      if name.isEmpty then .error (.missingName text)
      else .ok ⟨String.ofList name, arity⟩

/-- Why a source unit is not a program. -/
inductive CheckError where
  | undeclaredFunction (name : String) (position : Position)
  | arityMismatch (name : String) (expected found : Nat) (position : Position)
  | missingMain
  | mainWithParameters (count : Nat)
  | conflictingLibrary (name : String)
  deriving DecidableEq, Repr

/-- The wording of a check that fails. -/
def CheckError.message : CheckError → String
  | undeclaredFunction name p => s!"{p.text}: call to undeclared function `{name}`"
  | arityMismatch name expected found p =>
    s!"{p.text}: `{name}` takes {expected} argument(s), called with {found}"
  | missingMain => "no `main` function defined"
  | mainWithParameters count => s!"`main` must not take parameters, found {count}"
  | conflictingLibrary name => s!"extern `{name}` conflicts with a function of the same name"

/-- Numbers of arguments by function name. -/
abbrev Arities := List (String × Nat)

namespace SourceUnit

/-- The functions of the unit. -/
def unitArities (p : Program) : Arities :=
  p.functions.map fun f => (f.name, f.arity)

/-- Adds library functions. One that contradicts a known function is left out
and reported. -/
def addLibrary (known : Arities) : List LibraryFunction → Arities × List CheckError
  | [] => (known, [])
  | f :: rest =>
    if ((known.lookup f.name).getD f.arity) ≠ f.arity then
      let (arities, errors) := addLibrary known rest
      (arities, .conflictingLibrary f.name :: errors)
    else addLibrary ((f.name, f.arity) :: known) rest

/-- What is wrong with a call. -/
def checkCall (known : Arities) (call : CallSite) : Option CheckError :=
  match known.lookup call.name with
  | none => some (.undeclaredFunction call.name call.position)
  | some expected =>
    if expected ≠ call.arity then
      some (.arityMismatch call.name expected call.arity call.position)
    else none

/-- What is wrong with the function a program begins with. -/
def checkMain (p : Program) : Option CheckError :=
  match p.function? "main" with
  | none => some .missingMain
  | some f =>
    if !f.isDefined then some .missingMain
    else if 0 < f.arity then some (.mainWithParameters f.arity)
    else none

/-- All that is wrong with a unit: libraries first, then calls in the order of
the source, then `main`. -/
def check (u : SourceUnit) (library : List LibraryFunction) : List CheckError :=
  let (known, errors) := addLibrary (unitArities u.program) library
  errors ++ u.calls.filterMap (checkCall known) ++ (checkMain u.program).toList

end SourceUnit

end WordC
