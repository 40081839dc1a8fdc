import Contracts.Syntax.Span

/-!
# What can be wrong with a script

A fault is a cause and the span it is reported at. The wording of each cause is in `Cause.message`
and nowhere else.
-/

namespace Contracts

inductive Cause where
  | expressionExpected
  | statementEndExpected
  | semicolonExpected
  /-- One token was needed and another one stood there. -/
  | expected (wanted got : String)
  | nameExpected
  /-- The word `let` as the name of a block's variable or of a class. -/
  | nameIsLet
  /-- Neither a name nor a pattern where something is to be bound. -/
  | bindingExpected (got : String)
  | returnOutsideFunction
  | breakOutsideLoop
  | breakLabelUnknown
  | continueOutsideLoop
  | continueLabelUnknown
  | lineBreakAfterThrow
  | unterminatedString
  | unterminatedRegex
  | unterminatedTemplate
  | unterminatedComment
  | moduleSyntax
  | invalidTarget
  | invalidUpdateTarget
  /-- An operand of `??` that is put together by `||` or `&&`. -/
  | logicalMixed
  | declarationNotAllowed
  | labelRepeated (name : String)
  | constantWithoutValue
  | patternWithoutValue
  /-- A loop over something that binds more than one variable. -/
  | loopVariableRepeated
  /-- A loop over a sequence whose variable has an initializer. -/
  | loopVariableWithValue
  /-- Nothing that may follow the key of a member of an object. -/
  | memberExpected (got : String)
  /-- A key that is no name stands alone. -/
  | keyAlone (got : String)
  | unexpectedCharacter (c : Char)
  /-- An escape without the digits that it needs. -/
  | badEscape (wanted : String)
  /-- An escape in braces that is not closed. -/
  | unclosedEscape
  | octalInStrict
  | decimalInStrict
  | nameInStrict (name : String)
  | nameInAsync
  | targetInStrict
  | withInStrict
  | deleteInStrict
  | argumentsInClass
  /-- A function that asks for strict mode and has other parameters than names. -/
  | strictWithPatterns
  | superAlone
  | unexpectedEnd
  deriving DecidableEq, Repr

def Cause.message : Cause → String
  | .expressionExpected => "Expression expected"
  | .statementEndExpected => "Expected ';', '\x7d' or <eof>"
  | .semicolonExpected => "Expected a semicolon"
  | .expected wanted got => "Expected '" ++ wanted ++ "', got '" ++ got ++ "'"
  | .nameExpected => "Expected ident"
  | .nameIsLet =>
    "Unexpected token `let`. Expected let is reserved in const, let, class declaration"
  | .bindingExpected got =>
    "Unexpected token `" ++ got ++ "`. Expected yield, an identifier, [ or \x7b"
  | .returnOutsideFunction => "Return statement is not allowed here"
  | .breakOutsideLoop =>
    "A 'break' statement can only be used within an enclosing iteration or switch statement"
  | .breakLabelUnknown =>
    "A 'break' statement can only jump to a label of an enclosing statement"
  | .continueOutsideLoop =>
    "A 'continue' statement can only jump to a label of an enclosing iteration statement"
  | .continueLabelUnknown => "Jump target cannot cross function boundary"
  | .lineBreakAfterThrow => "LineBreak cannot follow 'throw'"
  | .unterminatedString => "Unterminated string constant"
  | .unterminatedRegex => "Unterminated regexp literal"
  | .unterminatedTemplate => "Unterminated template"
  | .unterminatedComment => "Unterminated block comment"
  | .moduleSyntax => "'import', and 'export' cannot be used outside of module code"
  | .invalidTarget => "Invalid assignment target"
  | .invalidUpdateTarget =>
    "The left-hand side of an assignment expression must be a variable or a property access."
  | .logicalMixed =>
    "Nullish coalescing operator(??) requires parens when mixing with logical operators"
  | .declarationNotAllowed => "Declaration is not allowed"
  | .labelRepeated name => "Label " ++ name ++ " is already declared"
  | .constantWithoutValue => "'const' declarations must be initialized"
  | .patternWithoutValue => "Destructuring bindings require initializers"
  | .loopVariableRepeated => "Expected one variable binding"
  | .loopVariableWithValue => "Unexpected initializer in for in/of loop"
  | .memberExpected got =>
    "Unexpected token `" ++ got ++ "`. Expected ... , *,  (, [, :, , ?, = or an identifier"
  | .keyAlone got => "Unexpected token `" ++ got ++ "`. Expected identifier"
  | .unexpectedCharacter c => "Unexpected character '" ++ String.singleton c ++ "'"
  | .badEscape wanted => "Bad character escape sequence, expected " ++ wanted
  | .unclosedEscape => "Invalid unicode escape"
  | .octalInStrict => "Legacy octal escape is not permitted in strict mode"
  | .decimalInStrict => "Legacy decimal escape is not permitted in strict mode"
  | .nameInStrict name => "`" ++ name ++ "` cannot be used as an identifier in strict mode"
  | .nameInAsync => "`await` cannot be used as an identifier in an async context"
  | .targetInStrict =>
    "'eval' and 'arguments' cannot be used as a binding identifier in strict mode"
  | .withInStrict => "With statement are not allowed in strict mode"
  | .deleteInStrict => "`delete` cannot be called on an identifier in strict mode"
  | .argumentsInClass => "'arguments' is only allowed in functions and class methods"
  | .strictWithPatterns =>
    "Illegal 'use strict' directive in function with non-simple parameter list."
  | .superAlone => "Invalid access to super"
  | .unexpectedEnd => "Unexpected eof"

structure Fault where
  cause : Cause
  span : Span
  deriving DecidableEq, Repr

end Contracts
