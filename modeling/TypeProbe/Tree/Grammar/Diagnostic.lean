import TypeProbe.Text.Position

/-!
# Diagnostics

What can be wrong with the grammar of a text (`SyntaxFault`), how it is said, and where it was
found.
-/

namespace TypeProbe

/-- What is wrong where the grammar expected something else. -/
inductive SyntaxFault where
  /-- An expression is missing. -/
  | expression
  /-- The given mark or keyword is missing. -/
  | spelling (expected : String)
  /-- The name of a member is missing after its point. -/
  | memberName
  /-- A subscript is empty. -/
  | indexOrSlice
  /-- Expressions are nested too deeply. -/
  | tooDeep
  /-- A line is indented where no block starts. -/
  | unexpectedIndent
  /-- A line is indented less where no block ends. -/
  | unexpectedUnindent
  /-- A line is indented less than its block, and not as much as any block around it. -/
  | inconsistentUnindent
  /-- A block is not indented. -/
  | missingBlock
  /-- Two statements stand on one line without a mark between them. -/
  | missingSeparator
  /-- No definition or block follows the word for asynchronous ones. -/
  | asyncAlone
  /-- A name is missing. -/
  | identifier
  /-- The name after `as` is missing in an import of a module. -/
  | aliasName
  /-- The name after `as` is missing in an import from a module. -/
  | aliasSymbolName
  /-- The name of an imported symbol is missing. -/
  | importSymbolName
  /-- No names follow in an import from a module. -/
  | importSymbols
  /-- The name of a module is missing or unfinished. -/
  | moduleName
  /-- No expression follows the mark of a decorator. -/
  | decoratorName
  /-- Something follows a decorator on its line. -/
  | decoratorLineEnd
  /-- No definition follows decorators. -/
  | decoratedDefinition
  /-- The name of a function is missing. -/
  | functionName
  /-- The name of a class is missing. -/
  | className
  /-- The name of a parameter is missing. -/
  | parameterName
  /-- The name for a caught exception is missing. -/
  | exceptionName
  /-- Nothing is done after a block that may fail. -/
  | tryAlone
deriving DecidableEq, Inhabited, Repr

/-- How a fault is said. -/
def SyntaxFault.message : SyntaxFault → String
  | .expression => "Expected expression"
  | .spelling expected => "Expected \"" ++ expected ++ "\""
  | .memberName => "Expected member name after \".\""
  | .indexOrSlice => "Expected index or slice expression"
  | .tooDeep => "Maximum parse depth exceeded"
  | .unexpectedIndent => "Unexpected indentation"
  | .unexpectedUnindent => "Unindent not expected"
  | .inconsistentUnindent => "Unindent amount does not match previous indent"
  | .missingBlock => "Expected indented block"
  | .missingSeparator => "Statements must be separated by newlines or semicolons"
  | .asyncAlone => "Expected \"def\", \"with\" or \"for\" to follow \"async\""
  | .identifier => "Expected identifier"
  | .aliasName => "Expected alias name"
  | .aliasSymbolName => "Expected alias symbol name"
  | .importSymbolName => "Expected import symbol name"
  | .importSymbols => "Expected one or more symbol names after import"
  | .moduleName => "Expected module name"
  | .decoratorName => "Expected decorator name"
  | .decoratorLineEnd => "Expected new line at end of decorator"
  | .decoratedDefinition => "Expected function or class declaration after decorator"
  | .functionName => "Expected function name after \"def\""
  | .className => "Expected class name"
  | .parameterName => "Expected parameter name"
  | .exceptionName => "Expected symbol name after \"as\""
  | .tryAlone => "Try statement must have at least one except or finally clause"

/-- A fault and where it was found. -/
structure Diagnostic where
  /-- The stretch of the text at which it was noticed. -/
  range : TextRange
  /-- What is wrong. -/
  fault : SyntaxFault
deriving DecidableEq, Inhabited, Repr

end TypeProbe
