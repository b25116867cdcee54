import TypeProbe.Text.Letter
import TypeProbe.Token.Literal

/-!
# From text to tokens

Reading has two halves. `Piece.at` says what stands at the front of a text, and how many characters
it takes, without regard to what came before. `Layout.absorb` goes through the pieces from left to
right and keeps what they are worth as tokens: it counts open brackets, measures the blanks before
the first token of a line, and turns their changes into indentation tokens. `Tokens.ofText` is the
whole list, which ends in one `endOfStream`. Every step takes at least one character, so the reading
ends.
-/

namespace TypeProbe

/-- The operators by their spelling, longer spellings first. -/
def operatorSpellings : List (List Char × Operator) := [
  (['*', '*', '='], .powerEqual), (['/', '/', '='], .floorDivideEqual),
  (['<', '<', '='], .leftShiftEqual), (['>', '>', '='], .rightShiftEqual),
  (['*', '*'], .power), (['/', '/'], .floorDivide), (['<', '<'], .leftShift),
  (['>', '>'], .rightShift), (['<', '='], .lessThanOrEqual), (['>', '='], .greaterThanOrEqual),
  (['=', '='], .equals), (['!', '='], .notEquals), (['<', '>'], .lessOrGreaterThan),
  (['+', '='], .addEqual), (['-', '='], .subtractEqual), (['*', '='], .multiplyEqual),
  (['/', '='], .divideEqual), (['%', '='], .modEqual), (['&', '='], .bitwiseAndEqual),
  (['|', '='], .bitwiseOrEqual), (['^', '='], .bitwiseXorEqual), (['@', '='], .matrixMultiplyEqual),
  (['+'], .add), (['-'], .subtract), (['*'], .multiply), (['/'], .divide), (['%'], .mod),
  (['&'], .bitwiseAnd), (['|'], .bitwiseOr), (['^'], .bitwiseXor), (['~'], .bitwiseInvert),
  (['@'], .matrixMultiply), (['<'], .lessThan), (['>'], .greaterThan), (['='], .assign)]

/-- What stands at the front of a text. -/
inductive Piece where
  /-- A space, tab or form feed. -/
  | blank
  /-- The end of a line. -/
  | lineEnd (kind : NewLineKind)
  /-- A comment without the end of its line. -/
  | comment
  /-- A backslash that joins its line to the next one. -/
  | lineJoin
  /-- A token. -/
  | lexeme (lexeme : Lexeme)
deriving DecidableEq, Inhabited, Repr

/-- A piece and the number of characters it takes after the first. -/
structure SizedPiece where
  /-- What stands there. -/
  piece : Piece
  /-- How many more characters it takes. -/
  more : Nat
deriving DecidableEq, Inhabited, Repr

namespace Piece

/-- The marks that are tokens by themselves. -/
def punctuation? (c : Char) : Option Lexeme :=
  match c with
  | '(' => some .openParenthesis
  | ')' => some .closeParenthesis
  | '[' => some .openBracket
  | ']' => some .closeBracket
  | '\x7b' => some .openCurlyBrace
  | '\x7d' => some .closeCurlyBrace
  | ',' => some .comma
  | ';' => some .semicolon
  | '`' => some .backtick
  | _ => none

/-- The operator with the longest spelling at the front of the text, and its length. -/
def operator? (text : List Char) : Option (Operator × Nat) :=
  (operatorSpellings.find? fun (spelling, _) => spelling.isPrefixOf text).map
    fun (spelling, op) => (op, spelling.length)

/-- The word at the front of the text, which starts with a letter or underscore: a string if the
word announces one, a keyword, or a name. -/
def wordOrString (text : List Char) : SizedPiece :=
  let word := text.takeWhile Letter.continuesWord
  let rest := text.drop word.length
  let letters? := match rest with
    | c :: _ =>
      if c = '"' || c = '\'' then (StringLiteral.letterFlags? word).map fun fs => (fs, c) else none
    | [] => none
  match letters? with
  | some (letters, quote) =>
    let (literal, size) := StringLiteral.read letters quote rest
    ⟨.lexeme (.string literal), word.length + size - 1⟩
  | none =>
    let name := String.ofList word
    match Keyword.ofSpelling? name with
    | some k => ⟨.lexeme (.keyword k), word.length - 1⟩
    | none => ⟨.lexeme (.identifier name), word.length - 1⟩

/-- The number at the front of the text. -/
def number (text : List Char) : SizedPiece :=
  let (literal, size) := NumberLiteral.read text
  ⟨.lexeme (.number literal), size - 1⟩

/-- What stands at the front of the text `c :: rest`. -/
def «at» (c : Char) (rest : List Char) : SizedPiece :=
  if c = ' ' || c = '\t' || c = '\x0c' then ⟨.blank, 0⟩
  else if c = '\n' then ⟨.lineEnd .lineFeed, 0⟩
  else if c = '\r' then
    if rest.head? = some '\n' then ⟨.lineEnd .carriageReturnLineFeed, 1⟩
    else ⟨.lineEnd .carriageReturn, 0⟩
  else if c = '#' then ⟨.comment, (rest.takeWhile fun d => d != '\n' && d != '\r').length⟩
  else if c = '\\' && rest.take 2 = ['\r', '\n'] then ⟨.lineJoin, 2⟩
  else if c = '\\' && (rest.head? = some '\n' || rest.head? = some '\r') then ⟨.lineJoin, 1⟩
  else match punctuation? c with
  | some mark => ⟨.lexeme mark, 0⟩
  | none =>
    if c = ':' then
      if rest.head? = some '=' then ⟨.lexeme (.operator .walrus), 1⟩ else ⟨.lexeme .colon, 0⟩
    else if c = '.' then
      if (rest.head?.map Char.isDigit).getD false then number (c :: rest)
      else if rest.take 2 = ['.', '.'] then ⟨.lexeme .ellipsis, 2⟩
      else ⟨.lexeme .dot, 0⟩
    else if c = '-' && rest.head? = some '>' then ⟨.lexeme .arrow, 1⟩
    else if c.isDigit then number (c :: rest)
    else if c = '"' || c = '\'' then
      let (literal, size) := StringLiteral.read [] c (c :: rest)
      ⟨.lexeme (.string literal), size - 1⟩
    else match operator? (c :: rest) with
    | some (op, size) => ⟨.lexeme (.operator op), size - 1⟩
    | none => if Letter.startsWord c then wordOrString (c :: rest) else ⟨.lexeme .invalid, 0⟩

end Piece

/-- What has been made of the text so far. -/
structure Layout where
  /-- The tokens so far, the last one first. -/
  tokens : List Token
  /-- The number of open brackets. -/
  brackets : Nat
  /-- The widths of the open blocks, the innermost first. -/
  indents : List Nat
  /-- While only blanks have been read on a line, their width. -/
  leading : Option Nat
  /-- Whether the line has tokens other than indentation. -/
  lineHasTokens : Bool
deriving DecidableEq, Inhabited, Repr

namespace Layout

/-- The state before the first character. -/
def initial : Layout := ⟨[], 0, [], some 0, false⟩

/-- The width of the innermost open block. -/
def width (l : Layout) : Nat := l.indents.headD 0

/-- Adds a token. -/
def push (l : Layout) (start length : Nat) (lexeme : Lexeme) : Layout :=
  { l with tokens := ⟨⟨start, length⟩, lexeme⟩ :: l.tokens }

/-- A tab reaches to the next multiple of eight columns. -/
def tabStop : Nat := 8

/-- Widths are counted in 32 bits and wrap around. -/
def widthLimit : Nat := 0x100000000

/-- The width of the blanks at a line's start after one more: a form feed starts it afresh. -/
def widthAfter (width : Nat) (blank : Char) : Nat :=
  if blank = '\t' then (width / tabStop + 1) * tabStop % widthLimit
  else if blank = '\x0c' then 0
  else (width + 1) % widthLimit

/-- The tokens that close the blocks wider than `width`, in order, and the widths still open. -/
def closeBlocks (width : Nat) : List Nat → List Lexeme × List Nat
  | [] => ([], [])
  | top :: below =>
    if width < top then
      let outer := below.headD 0
      let (rest, kept) := closeBlocks width below
      (.dedent outer (width ≤ outer) :: rest, kept)
    else ([], top :: below)

/-- Takes note of the width of the blanks before the first token of a line, at offset `start`. -/
def indentTo (l : Layout) (start width : Nat) : Layout :=
  if l.width < width then
    { l.push start 0 (.indent width) with indents := width :: l.indents }
  else
    let (dedents, kept) := closeBlocks width l.indents
    { dedents.foldl (fun l d => l.push start 0 d) l with indents := kept }

/-- The number of open brackets after a token; closing brackets never make it negative. -/
def bracketsAfter (brackets : Nat) : Lexeme → Nat
  | .openParenthesis | .openBracket | .openCurlyBrace => brackets + 1
  | .closeParenthesis | .closeBracket | .closeCurlyBrace => brackets - 1
  | _ => brackets

/-- Leaves the blanks at the start of the line: if a piece that counts follows them, their width is
compared with the open blocks. -/
def leaveBlanks (l : Layout) (start : Nat) (counts : Bool) : Layout :=
  match l.leading with
  | none => l
  | some width =>
    let l := if counts then l.indentTo start width else l
    { l with leading := none }

/-- Goes past one piece, which starts with the character `c` at offset `start` and has `length`
bytes. Line ends within brackets and on lines without tokens are no tokens. -/
def absorb (l : Layout) (c : Char) (start length : Nat) : Piece → Layout
  | .blank => { l with leading := l.leading.map (widthAfter · c) }
  | .comment => l.leaveBlanks start false
  | .lineJoin => l.leaveBlanks start true
  | .lineEnd kind =>
    let l := l.leaveBlanks start false
    if l.brackets ≠ 0 then l
    else
      let l := if l.lineHasTokens then l.push start length (.newLine kind) else l
      { l with lineHasTokens := false, leading := some 0 }
  | .lexeme lexeme =>
    let l := (l.leaveBlanks start true).push start length lexeme
    { l with lineHasTokens := true, brackets := bracketsAfter l.brackets lexeme }

/-- Adds what the end of the text, at offset `stop`, brings: the end of a line that has tokens, the
end of every open block, and the end of the stream. -/
def finish (l : Layout) (stop : Nat) : Layout :=
  let l := if l.lineHasTokens then l.push stop 0 (.newLine .implied) else l
  let (dedents, _) := closeBlocks 0 l.indents
  let l := dedents.foldl (fun l d => l.push stop 0 d) l
  l.push stop 0 .endOfStream

end Layout

/-- The number of bytes of some characters. -/
def byteLength (text : List Char) : Nat := text.foldr (fun c n => c.utf8Size + n) 0

@[simp] theorem byteLength_nil : byteLength [] = 0 := rfl

@[simp] theorem byteLength_cons (c : Char) (text : List Char) :
    byteLength (c :: text) = c.utf8Size + byteLength text := rfl

@[simp] theorem byteLength_append (text more : List Char) :
    byteLength (text ++ more) = byteLength text + byteLength more := by
  induction text with
  | nil => simp
  | cons c text ih => simp [ih, Nat.add_assoc]

/-- Goes through a text that stands at an offset, and adds what the end of the text brings. -/
def Layout.readFrom (l : Layout) (start : Nat) : List Char → Layout
  | [] => l.finish start
  | c :: rest =>
    let sized := Piece.at c rest
    let length := c.utf8Size + byteLength (rest.take sized.more)
    (l.absorb c start length sized.piece).readFrom (start + length) (rest.drop sized.more)
termination_by text => text.length
decreasing_by
  simp only [List.length_drop, List.length_cons]
  omega

/-- The tokens of a text. -/
def Tokens.ofText (text : List Char) : List Token :=
  (Layout.initial.readFrom 0 text).tokens.reverse

end TypeProbe
