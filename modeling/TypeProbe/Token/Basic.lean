import TypeProbe.Decimal.Binary64
import TypeProbe.Label
import TypeProbe.Text.Position

/-!
# Tokens

A token is a stretch of the text together with what stands there, its `Lexeme`: a word, a number, a
string, an operator or another mark, or one of the layout tokens for line ends and indentation. The
enumerations here list their members in the order of their codes.
-/

namespace TypeProbe

/-- The kind of a token. -/
inductive TokenKind where
  | invalid | endOfStream | newLine | indent | dedent | string | number | identifier | keyword
  | operator | colon | semicolon | comma | openParenthesis | closeParenthesis | openBracket
  | closeBracket | openCurlyBrace | closeCurlyBrace | ellipsis | dot | arrow | backtick
deriving DecidableEq, Inhabited, Repr

instance : Labelled TokenKind where
  members := [.invalid, .endOfStream, .newLine, .indent, .dedent, .string, .number, .identifier,
    .keyword, .operator, .colon, .semicolon, .comma, .openParenthesis, .closeParenthesis,
    .openBracket, .closeBracket, .openCurlyBrace, .closeCurlyBrace, .ellipsis, .dot, .arrow,
    .backtick]
  label
    | .invalid => "Invalid" | .endOfStream => "EndOfStream" | .newLine => "NewLine"
    | .indent => "Indent" | .dedent => "Dedent" | .string => "String" | .number => "Number"
    | .identifier => "Identifier" | .keyword => "Keyword" | .operator => "Operator"
    | .colon => "Colon" | .semicolon => "Semicolon" | .comma => "Comma"
    | .openParenthesis => "OpenParenthesis" | .closeParenthesis => "CloseParenthesis"
    | .openBracket => "OpenBracket" | .closeBracket => "CloseBracket"
    | .openCurlyBrace => "OpenCurlyBrace" | .closeCurlyBrace => "CloseCurlyBrace"
    | .ellipsis => "Ellipsis" | .dot => "Dot" | .arrow => "Arrow" | .backtick => "Backtick"

/-- How a line ends: by a carriage return, a line feed, both, or where the text ends. -/
inductive NewLineKind where
  | carriageReturn | lineFeed | carriageReturnLineFeed | implied
deriving DecidableEq, Inhabited, Repr

instance : Labelled NewLineKind where
  members := [.carriageReturn, .lineFeed, .carriageReturnLineFeed, .implied]
  label
    | .carriageReturn => "CarriageReturn" | .lineFeed => "LineFeed"
    | .carriageReturnLineFeed => "CarriageReturnLineFeed" | .implied => "Implied"

/-- Operators. The last seven are spelled by keywords and arise in expressions only. -/
inductive Operator where
  | add | addEqual | assign | bitwiseAnd | bitwiseAndEqual | bitwiseInvert | bitwiseOr
  | bitwiseOrEqual | bitwiseXor | bitwiseXorEqual | divide | divideEqual | equals | floorDivide
  | floorDivideEqual | greaterThan | greaterThanOrEqual | leftShift | leftShiftEqual
  | lessOrGreaterThan | lessThan | lessThanOrEqual | matrixMultiply | matrixMultiplyEqual | mod
  | modEqual | multiply | multiplyEqual | notEquals | power | powerEqual | rightShift
  | rightShiftEqual | subtract | subtractEqual | walrus | and | or | not | is | isNot | «in» | notIn
deriving DecidableEq, Inhabited, Repr

instance : Labelled Operator where
  members := [.add, .addEqual, .assign, .bitwiseAnd, .bitwiseAndEqual, .bitwiseInvert, .bitwiseOr,
    .bitwiseOrEqual, .bitwiseXor, .bitwiseXorEqual, .divide, .divideEqual, .equals, .floorDivide,
    .floorDivideEqual, .greaterThan, .greaterThanOrEqual, .leftShift, .leftShiftEqual,
    .lessOrGreaterThan, .lessThan, .lessThanOrEqual, .matrixMultiply, .matrixMultiplyEqual, .mod,
    .modEqual, .multiply, .multiplyEqual, .notEquals, .power, .powerEqual, .rightShift,
    .rightShiftEqual, .subtract, .subtractEqual, .walrus, .and, .or, .not, .is, .isNot, .in, .notIn]
  label
    | .add => "Add" | .addEqual => "AddEqual" | .assign => "Assign"
    | .bitwiseAnd => "BitwiseAnd" | .bitwiseAndEqual => "BitwiseAndEqual"
    | .bitwiseInvert => "BitwiseInvert" | .bitwiseOr => "BitwiseOr"
    | .bitwiseOrEqual => "BitwiseOrEqual" | .bitwiseXor => "BitwiseXor"
    | .bitwiseXorEqual => "BitwiseXorEqual" | .divide => "Divide" | .divideEqual => "DivideEqual"
    | .equals => "Equals" | .floorDivide => "FloorDivide"
    | .floorDivideEqual => "FloorDivideEqual" | .greaterThan => "GreaterThan"
    | .greaterThanOrEqual => "GreaterThanOrEqual" | .leftShift => "LeftShift"
    | .leftShiftEqual => "LeftShiftEqual" | .lessOrGreaterThan => "LessOrGreaterThan"
    | .lessThan => "LessThan" | .lessThanOrEqual => "LessThanOrEqual"
    | .matrixMultiply => "MatrixMultiply" | .matrixMultiplyEqual => "MatrixMultiplyEqual"
    | .mod => "Mod" | .modEqual => "ModEqual" | .multiply => "Multiply"
    | .multiplyEqual => "MultiplyEqual" | .notEquals => "NotEquals" | .power => "Power"
    | .powerEqual => "PowerEqual" | .rightShift => "RightShift"
    | .rightShiftEqual => "RightShiftEqual" | .subtract => "Subtract"
    | .subtractEqual => "SubtractEqual" | .walrus => "Walrus" | .and => "And" | .or => "Or"
    | .not => "Not" | .is => "Is" | .isNot => "IsNot" | .in => "In" | .notIn => "NotIn"

namespace Operator

/-- How strongly a binary operator binds; none for operators that are not binary. -/
def binaryPrecedence? : Operator → Option Nat
  | .or => some 1
  | .and => some 2
  | .equals | .notEquals | .lessThan | .lessThanOrEqual | .greaterThan | .greaterThanOrEqual
  | .lessOrGreaterThan | .is | .isNot | .in | .notIn => some 4
  | .bitwiseOr => some 5
  | .bitwiseXor => some 6
  | .bitwiseAnd => some 7
  | .leftShift | .rightShift => some 8
  | .add | .subtract => some 9
  | .multiply | .matrixMultiply | .divide | .floorDivide | .mod => some 10
  | .power => some 12
  | _ => none

/-- Comparisons are the binary operators of one strength. -/
def isComparison (op : Operator) : Bool := op.binaryPrecedence? == some 4

/-- Operators that assign the result of another operator. -/
def isAugmentedAssignment : Operator → Bool
  | .addEqual | .bitwiseAndEqual | .bitwiseOrEqual | .bitwiseXorEqual | .divideEqual
  | .floorDivideEqual | .leftShiftEqual | .matrixMultiplyEqual | .modEqual | .multiplyEqual
  | .powerEqual | .rightShiftEqual | .subtractEqual => true
  | _ => false

end Operator

/-- Reserved words. -/
inductive Keyword where
  | and | as | assert | async | await | «break» | «class» | «continue» | debug | define | del
  | elif | «else» | except | false | finally | «for» | «from» | global | «if» | «import» | «in»
  | is | lambda | none | nonlocal | not | or | pass | raise | «return» | true | «try» | «while»
  | «with» | yield
deriving DecidableEq, Inhabited, Repr

namespace Keyword

/-- Every keyword with its label and its spelling, in the order of the codes. -/
def table : List (Keyword × String × String) := [
  (.and, "And", "and"), (.as, "As", "as"), (.assert, "Assert", "assert"),
  (.async, "Async", "async"), (.await, "Await", "await"), (.break, "Break", "break"),
  (.class, "Class", "class"), (.continue, "Continue", "continue"), (.debug, "Debug", "__debug__"),
  (.define, "Def", "def"), (.del, "Del", "del"), (.elif, "Elif", "elif"), (.else, "Else", "else"),
  (.except, "Except", "except"), (.false, "False", "False"), (.finally, "Finally", "finally"),
  (.for, "For", "for"), (.from, "From", "from"), (.global, "Global", "global"), (.if, "If", "if"),
  (.import, "Import", "import"), (.in, "In", "in"), (.is, "Is", "is"),
  (.lambda, "Lambda", "lambda"), (.none, "None", "None"), (.nonlocal, "Nonlocal", "nonlocal"),
  (.not, "Not", "not"), (.or, "Or", "or"), (.pass, "Pass", "pass"), (.raise, "Raise", "raise"),
  (.return, "Return", "return"), (.true, "True", "True"), (.try, "Try", "try"),
  (.while, "While", "while"), (.with, "With", "with"), (.yield, "Yield", "yield")]

instance : Labelled Keyword where
  members := table.map (·.1)
  label k := ((table.find? (·.1 == k)).map (·.2.1)).getD ""

/-- The keyword that is spelled so. -/
def ofSpelling? (word : String) : Option Keyword := (table.find? (·.2.2 == word)).map (·.1)

end Keyword

/-- Facts about the way a string is written. -/
inductive StringFlag where
  | singleQuote | doubleQuote | triplicate | raw | unicode | bytes | format | unterminated
deriving DecidableEq, Inhabited, Repr

instance : FlagLabelled StringFlag where
  members := [.singleQuote, .doubleQuote, .triplicate, .raw, .unicode, .bytes, .format,
    .unterminated]
  label
    | .singleQuote => "SingleQuote" | .doubleQuote => "DoubleQuote" | .triplicate => "Triplicate"
    | .raw => "Raw" | .unicode => "Unicode" | .bytes => "Bytes" | .format => "Format"
    | .unterminated => "Unterminated"
  place
    | .singleQuote => 0 | .doubleQuote => 1 | .triplicate => 2 | .raw => 3 | .unicode => 4
    | .bytes => 5 | .format => 6 | .unterminated => 16

/-- A string as it is written and what it stands for. -/
structure StringLiteral where
  /-- How it is written. -/
  flags : Flags StringFlag
  /-- The text it stands for. -/
  value : String
  /-- Whether one of its escapes is malformed. -/
  hasUnescapeErrors : Bool
deriving DecidableEq, Inhabited, Repr

/-- The value of a number. -/
inductive NumberValue where
  /-- A whole number below `2 ^ 63`. -/
  | int (n : Nat)
  /-- Any other number. -/
  | float (x : Binary64)
deriving DecidableEq, Inhabited, Repr

/-- A number as it is written and what it stands for. -/
structure NumberLiteral where
  /-- What it stands for. -/
  value : NumberValue
  /-- Whether it is written without point and exponent. -/
  isInteger : Bool
  /-- Whether it ends in the mark of the imaginary unit. -/
  isImaginary : Bool
deriving DecidableEq, Inhabited, Repr

/-- What stands at a token. -/
inductive Lexeme where
  /-- A character that starts nothing. -/
  | invalid
  /-- The end of the text. -/
  | endOfStream
  /-- The end of a line that holds tokens. -/
  | newLine (kind : NewLineKind)
  /-- A line indented more than the one before, and how far. -/
  | indent (amount : Nat)
  /-- A line indented less: the width of the block that goes on, and whether the line reaches it. -/
  | dedent (amount : Nat) (matchesIndent : Bool)
  /-- A string. -/
  | string (literal : StringLiteral)
  /-- A number. -/
  | number (literal : NumberLiteral)
  /-- A name. -/
  | identifier (name : String)
  /-- A reserved word. -/
  | keyword (word : Keyword)
  /-- An operator. -/
  | operator (op : Operator)
  /-- Punctuation, which is nothing more than its kind. -/
  | colon | semicolon | comma | openParenthesis | closeParenthesis | openBracket | closeBracket
  | openCurlyBrace | closeCurlyBrace | ellipsis | dot | arrow | backtick
deriving DecidableEq, Inhabited, Repr

/-- The kind of a lexeme. -/
def Lexeme.kind : Lexeme → TokenKind
  | .invalid => .invalid
  | .endOfStream => .endOfStream
  | .newLine _ => .newLine
  | .indent _ => .indent
  | .dedent _ _ => .dedent
  | .string _ => .string
  | .number _ => .number
  | .identifier _ => .identifier
  | .keyword _ => .keyword
  | .operator _ => .operator
  | .colon => .colon
  | .semicolon => .semicolon
  | .comma => .comma
  | .openParenthesis => .openParenthesis
  | .closeParenthesis => .closeParenthesis
  | .openBracket => .openBracket
  | .closeBracket => .closeBracket
  | .openCurlyBrace => .openCurlyBrace
  | .closeCurlyBrace => .closeCurlyBrace
  | .ellipsis => .ellipsis
  | .dot => .dot
  | .arrow => .arrow
  | .backtick => .backtick

/-- A stretch of the text and what stands there. -/
structure Token where
  /-- Where it stands. -/
  range : TextRange
  /-- What stands there. -/
  lexeme : Lexeme
deriving DecidableEq, Inhabited, Repr

namespace Token

/-- The kind of a token. -/
def kind (t : Token) : TokenKind := t.lexeme.kind

/-- The offset of its first byte. -/
def start (t : Token) : Nat := t.range.start

/-- The offset after its last byte. -/
def stop (t : Token) : Nat := t.range.stop

/-- The keyword it is, if it is one. -/
def keyword? (t : Token) : Option Keyword :=
  match t.lexeme with
  | .keyword k => some k
  | _ => none

/-- The operator it is, if it is one. -/
def operator? (t : Token) : Option Operator :=
  match t.lexeme with
  | .operator op => some op
  | _ => none

end Token

end TypeProbe
