import TypedScript.Decimal
import TypedScript.Position

/-!
# Tokens

The words of the language: literals with their values, reserved words, names,
and symbols. A `Token` is such a word with the text it was read from and the
place where it stands. Blanks and comments have a kind of their own, so that a
list of tokens made by hand may hold them; reading a text never yields them.
-/

namespace TypedScript

/-- The reserved words without a value of their own. -/
inductive Keyword where
  | undefinedWord
  | nullWord
  | interfaceWord
  | functionWord
  | letWord
  | returnWord
  | ifWord
  | elseWord
  | exportWord
  | forWord
  | whileWord
  | thisWord
deriving DecidableEq, Repr

namespace Keyword

/-- How a reserved word is written. -/
def spelling : Keyword → String
  | .undefinedWord => "undefined"
  | .nullWord => "null"
  | .interfaceWord => "interface"
  | .functionWord => "function"
  | .letWord => "let"
  | .returnWord => "return"
  | .ifWord => "if"
  | .elseWord => "else"
  | .exportWord => "export"
  | .forWord => "for"
  | .whileWord => "while"
  | .thisWord => "this"

/-- All reserved words. -/
def all : List Keyword :=
  [.undefinedWord, .nullWord, .interfaceWord, .functionWord, .letWord,
   .returnWord, .ifWord, .elseWord, .exportWord, .forWord, .whileWord, .thisWord]

theorem mem_all (k : Keyword) : k ∈ all := by
  cases k <;> decide

/-- The reserved word with a given spelling. -/
def ofSpelling? (s : String) : Option Keyword :=
  all.find? (·.spelling = s)

end Keyword

/-- Operators and punctuation. -/
inductive Symbol where
  | arrow
  | strictEqual
  | strictNotEqual
  | equal
  | notEqual
  | lessEqual
  | greaterEqual
  | less
  | greater
  | andAnd
  | orOr
  | ampersand
  | bar
  | plusPlus
  | minusMinus
  | plusAssign
  | minusAssign
  | timesAssign
  | divideAssign
  | plus
  | minus
  | star
  | slash
  | percent
  | bang
  | assign
  | leftParen
  | rightParen
  | leftBrace
  | rightBrace
  | comma
  | semicolon
  | colon
  | dot
  | question
deriving DecidableEq, Repr

namespace Symbol

/-- How a symbol is written. -/
def spelling : Symbol → String
  | .arrow => "=>"
  | .strictEqual => "==="
  | .strictNotEqual => "!=="
  | .equal => "=="
  | .notEqual => "!="
  | .lessEqual => "<="
  | .greaterEqual => ">="
  | .less => "<"
  | .greater => ">"
  | .andAnd => "&&"
  | .orOr => "||"
  | .ampersand => "&"
  | .bar => "|"
  | .plusPlus => "++"
  | .minusMinus => "--"
  | .plusAssign => "+="
  | .minusAssign => "-="
  | .timesAssign => "*="
  | .divideAssign => "/="
  | .plus => "+"
  | .minus => "-"
  | .star => "*"
  | .slash => "/"
  | .percent => "%"
  | .bang => "!"
  | .assign => "="
  | .leftParen => "("
  | .rightParen => ")"
  | .leftBrace => "\x7b"
  | .rightBrace => "\x7d"
  | .comma => ","
  | .semicolon => ";"
  | .colon => ":"
  | .dot => "."
  | .question => "?"

/-- All symbols. -/
def all : List Symbol :=
  [.arrow, .strictEqual, .strictNotEqual, .equal, .notEqual, .lessEqual,
   .greaterEqual, .less, .greater, .andAnd, .orOr, .ampersand, .bar, .plusPlus,
   .minusMinus, .plusAssign, .minusAssign, .timesAssign, .divideAssign, .plus,
   .minus, .star, .slash, .percent, .bang, .assign, .leftParen, .rightParen,
   .leftBrace, .rightBrace, .comma, .semicolon, .colon, .dot, .question]

theorem mem_all (s : Symbol) : s ∈ all := by
  cases s <;> decide

/-- The symbol with a given spelling. -/
def ofSpelling? (s : String) : Option Symbol :=
  all.find? (·.spelling = s)

/-- A symbol as a message quotes it. -/
def quoted (s : Symbol) : String :=
  "'" ++ s.spelling ++ "'"

end Symbol

namespace Token

/-- What a token is, with the value of a literal and the text of a name. -/
inductive Kind where
  | number (value : Float)
  | text (value : String)
  | boolean (value : Bool)
  | keyword (word : Keyword)
  | identifier (name : String)
  | symbol (sign : Symbol)
  /-- A text literal whose line ends before its closing quote. -/
  | openText
  | comment
  | blank
  | endOfInput

namespace Kind

/-- A kind in the words of a message. -/
def description : Kind → String
  | .number value => "number " ++ Number.literalText value
  | .text value => "string \"" ++ value ++ "\""
  | .boolean value => "`" ++ toString value ++ "`"
  | .keyword word => "`" ++ word.spelling ++ "`"
  | .identifier name => "identifier `" ++ name ++ "`"
  | .symbol sign => sign.quoted
  | .openText => "unterminated string"
  | .comment => "comment"
  | .blank => "whitespace"
  | .endOfInput => "end of input"

/-- Whether the kind is a reserved word. Reserved words still serve as names
of properties. -/
def isReserved : Kind → Bool
  | .boolean _ => true
  | .keyword _ => true
  | _ => false

/-- Whether the kind is the given symbol. -/
def isSymbol (kind : Kind) (sign : Symbol) : Bool :=
  match kind with
  | .symbol s => s = sign
  | _ => false

/-- Whether the kind is the given reserved word. -/
def isKeyword (kind : Kind) (word : Keyword) : Bool :=
  match kind with
  | .keyword w => w = word
  | _ => false

/-- Whether the kind marks the end of the input. -/
def isEnd : Kind → Bool
  | .endOfInput => true
  | _ => false

end Kind

end Token

/-- A word of a source text. -/
structure Token where
  kind : Token.Kind
  /-- The characters the token was read from. -/
  lexeme : String
  /-- Where its first character stands. -/
  position : Position

end TypedScript
