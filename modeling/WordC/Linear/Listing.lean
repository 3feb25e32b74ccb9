import WordC.Linear.Program
/-!
# Listings of the linear form

One expression per line, indented by the scopes around it.
-/

namespace WordC

/-- The line of some elements at a depth; no line when there are none. -/
def listedLine (indent : String) (depth : Nat) (elements : List Element) : List String :=
  if elements.isEmpty then []
  else [String.join (List.replicate depth indent)
    ++ String.intercalate " " (elements.map Element.text) ++ "\n"]

/-- The lines of a body, given the depth and the reversed beginning of the
current line. An expression's line ends with the mark of its end; other marks
and keywords have lines of their own. -/
def listedBody (indent : String) : Nat → List Element → List Element → List String
  | depth, pending, [] => listedLine indent depth pending.reverse
  | depth, pending, e :: rest =>
    if e.inExpression then listedBody indent depth (e :: pending) rest
    else if e.endsExpression then
      listedLine indent depth (e :: pending).reverse ++ listedBody indent depth [] rest
    else
      let before := listedLine indent depth pending.reverse
      match e with
      | .marker .functionStart | .marker .scopeOpen =>
        before ++ listedLine indent depth [e] ++ listedBody indent (depth + 1) [] rest
      | .marker .functionEnd | .marker .scopeClose =>
        before ++ listedLine indent (depth - 1) [e] ++ listedBody indent (depth - 1) [] rest
      | _ => before ++ listedLine indent depth [e] ++ listedBody indent depth [] rest

namespace Function

/-- The head of a function in a listing. -/
def signature (f : Function) : String :=
  let parameters := f.parameters.map fun v => v.type.text ++ " " ++ v.name
  f.returnType.text ++ " " ++ f.name ++ "(" ++ String.intercalate ", " parameters ++ ")"

/-- A function in a listing. -/
def listed (indent : String) (f : Function) : String :=
  match f.body with
  | none => f.signature ++ ";\n\n"
  | some body =>
    f.signature ++ s!" [frame {f.frameSize.toNat}]\n"
      ++ String.join (listedBody indent 0 [] body) ++ "\n"

end Function

/-- A file-scope variable in a listing. -/
def Global.listed (indent : String) (g : Global) : String :=
  indent ++ g.type.text ++ " " ++ g.name ++ " = " ++ Text.decimal g.value ++ "\n"

/-- The listing of a program. Each open scope indents by `indent`. -/
def Program.listed (indent : String) (p : Program) : String :=
  let globals := if p.globals.isEmpty then ""
    else "globals:\n" ++ String.join (p.globals.map (·.listed indent)) ++ "\n"
  globals ++ String.join (p.functions.map (·.listed indent))

end WordC
