import WordC.Linear.Element
/-!
# Statements

The statements of a function body as a tree. The expressions in it are already
in linear form; `Stmt.linear` gives the linear form of the whole.
-/

namespace WordC

/-- An expression in linear form: operands and operators. -/
abbrev Code := List Element

mutual

/-- A statement. -/
inductive Stmt where
  /-- An expression evaluated for its effect. -/
  | eval (code : Code)
  /-- Leaves the function, with a value if there is one. -/
  | ret (value : Option Code)
  /-- Leaves the innermost loop. -/
  | leave
  /-- A scope of its own. -/
  | block (body : List Stmt)
  /-- A branch taken when the condition is not zero, with what else there is. -/
  | branch (condition : Code) (body : List Stmt) (other : Alternative)
  /-- A loop that tests its condition before each round. -/
  | loop (condition : Code) (body : List Stmt)
  /-- A loop with a first step, a condition, and a step after each round. -/
  | count (first : Option Code) (condition : Code) (step : Option Code) (body : List Stmt)

/-- What follows a branch that is not taken. -/
inductive Alternative where
  | none
  | elseIf (condition : Code) (body : List Stmt) (other : Alternative)
  | otherwise (body : List Stmt)

end

/-- The linear form of an expression statement. A missing expression leaves the
mark of its end. -/
def Code.ended (code : Option Code) : List Element :=
  code.getD [] ++ [.marker .expressionEnd]

/-- The linear form of a condition. -/
def Code.tested (code : Code) : List Element :=
  code ++ [.marker .zeroJump]

/-- The linear form of a scope around its statements. -/
def inScope (inner : List Element) : List Element :=
  .marker .scopeOpen :: (inner ++ [.marker .scopeClose])

mutual

/-- The linear form of a statement. -/
def Stmt.linear : Stmt → List Element
  | .eval code => Code.ended (some code)
  | .ret value => .keyword .returning :: Code.ended value
  | .leave => [.keyword .breakLoop]
  | .block body => inScope (blockLinear body)
  | .branch condition body other =>
    .keyword .ifThen :: (Code.tested condition ++ inScope (blockLinear body) ++ other.linear)
  | .loop condition body =>
    .keyword .whileLoop :: (Code.tested condition ++ inScope (blockLinear body))
  | .count first condition step body =>
    .keyword .forLoop ::
      (Code.ended first ++ Code.tested condition ++ Code.ended step ++ inScope (blockLinear body))

/-- The linear form of the alternative to a branch. -/
def Alternative.linear : Alternative → List Element
  | .none => []
  | .elseIf condition body other =>
    .keyword .elseIf :: (Code.tested condition ++ inScope (blockLinear body) ++ other.linear)
  | .otherwise body => .keyword .otherwise :: inScope (blockLinear body)

/-- The linear form of statements in a row. -/
def blockLinear : List Stmt → List Element
  | [] => []
  | s :: rest => s.linear ++ blockLinear rest

end

/-- The linear form of a function body. -/
def bodyLinear (body : List Stmt) : List Element :=
  .marker .functionStart :: (blockLinear body ++ [.marker .functionEnd])

end WordC
