import WordC.Expression.Builder
/-!
# Syntax errors

Why a token list is not a source unit, and the wording of each cause.
-/

namespace WordC

/-- Where a token or a name was expected. -/
inductive Place where
  | afterType | afterGlobal
  | afterFunctionName | forParameter | betweenParameters | afterParameters | openBody
  | inDeclaration | afterArraySize | afterDeclaration
  | afterExpression | afterReturnValue | afterBreak
  | afterIf | afterElseIf | afterWhile | afterCondition
  | afterFor | afterForFirst | afterForCondition | afterForHeader
  deriving DecidableEq, Repr

/-- The wording of a place. -/
def Place.text : Place → String
  | afterType => "after type"
  | afterGlobal => "after global declaration"
  | afterFunctionName => "after function name"
  | forParameter => "for parameter"
  | betweenParameters => "between parameters"
  | afterParameters => "after parameters"
  | openBody => "to open function body"
  | inDeclaration => "in declaration"
  | afterArraySize => "after array size"
  | afterDeclaration => "after declaration"
  | afterExpression => "after expression"
  | afterReturnValue => "after `return` value"
  | afterBreak => "after `break`"
  | afterIf => "after `if`"
  | afterElseIf => "after `else if`"
  | afterWhile => "after `while`"
  | afterCondition => "after condition"
  | afterFor => "after `for`"
  | afterForFirst => "after `for` initializer"
  | afterForCondition => "after `for` condition"
  | afterForHeader => "after `for` header"

/-- Why a token list is refused. -/
inductive SyntaxCause where
  | expectedToken (token : Token) (place : Place) (found : Token)
  | expectedName (place : Place)
  | expectedType
  | voidVariable (name : String)
  | voidParameter
  | globalArray
  | globalInitializer
  | arraySize
  | arrayInitializer
  | declaration (error : DeclarationError)
  | unclosedBlock
  | breakOutsideLoop
  | strayElse
  | returnWithoutValue (type : DataType)
  | returnWithValue
  | expectedExpression
  | unexpectedInExpression (token : Token)
  | typeInExpression (token : Token)
  | endInExpression
  | expression (error : ExpressionError)
  /-- The locals of a function do not fit the range of frame offsets. -/
  | frameOverflow
  /-- Statements are nested deeper than a token list of its length allows. -/
  | nestedTooDeep
  deriving DecidableEq, Repr

/-- The wording of a cause. -/
def SyntaxCause.message : SyntaxCause → String
  | expectedToken token place found =>
    s!"expected `{token.spelling}` {place.text}, found `{found.spelling}`"
  | expectedName place => "expected identifier " ++ place.text
  | expectedType => "expected a type"
  | voidVariable name => s!"variable `{name}` declared void"
  | voidParameter => "parameter declared void"
  | globalArray => "global arrays are not supported"
  | globalInitializer => "global initializer must be a constant"
  | arraySize => "array size must be a positive integer"
  | arrayInitializer => "array initializers are not supported"
  | declaration error => error.message
  | unclosedBlock => "unexpected EOF, expected `\x7d`"
  | breakOutsideLoop => "`break` outside of a loop"
  | strayElse => "`else` without a matching `if`"
  | returnWithoutValue type =>
    s!"`return` without a value in a function returning {type.text}"
  | returnWithValue => "`return` with a value in a void function"
  | expectedExpression => "expected expression"
  | unexpectedInExpression token => s!"unexpected `{token.spelling}` in expression"
  | typeInExpression token => s!"unexpected type `{token.spelling}` in expression"
  | endInExpression => "unexpected end of input in expression"
  | expression error => error.message
  | frameOverflow => "the frame of a function is too large"
  | nestedTooDeep => "statements are nested too deep"

/-- A syntax error and its place. -/
abbrev SyntaxError := Located SyntaxCause

/-- Line, column and wording. -/
def SyntaxError.message (e : SyntaxError) : String :=
  e.position.text ++ ": " ++ e.cause.message

end WordC
