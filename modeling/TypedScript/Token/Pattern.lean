import TypedScript.Token
import TypedScript.Token.Quoted

/-!
# Lexical patterns

Each `Pattern` is a class of character runs: numbers, text literals, words,
comments, symbols, line feeds and blanks. `Pattern.reach` is the length of the
longest prefix of a text that the pattern matches, zero if it matches none,
and `Pattern.longest?` picks the pattern that reaches farthest. No two
patterns can reach equally far from the same place, apart from reserved words
and names, which share the pattern `word`: a word that is reserved is never a
name.
-/

namespace TypedScript

/-- The classes of character runs a source text is made of. -/
inductive Pattern where
  | number
  | closedText (quote : Char)
  | openText (quote : Char)
  | word
  | lineComment
  | blockComment
  | symbol (sign : Symbol)
  | lineFeed
  | blanks
deriving DecidableEq, Repr

namespace Pattern

/-- All patterns. -/
def all : List Pattern :=
  [.number, .closedText '"', .closedText '\'', .openText '"', .openText '\'',
   .word, .lineComment, .blockComment, .lineFeed, .blanks] ++
    Symbol.all.map .symbol

/-- The characters a word may start with. -/
def startsWord (c : Char) : Bool :=
  c.isAlpha || c = '_' || c = '$'

/-- The characters a word goes on with. -/
def continuesWord (c : Char) : Bool :=
  startsWord c || c.isDigit

/-- The characters of a blank run; a line feed is not among them. -/
def isBlank (c : Char) : Bool :=
  c = ' ' || c = '\t' || c = '\r' || c = '\x0c'

/-- The length of the run at the front whose characters all satisfy `p`. -/
def runLength (p : Char → Bool) (s : List Char) : Nat :=
  (s.takeWhile p).length

/-- The length of a number: digits, then perhaps a point and more digits. A
point without a digit behind it does not belong to the number. -/
def numberLength (s : List Char) : Nat :=
  let whole := runLength Char.isDigit s
  if whole = 0 then 0
  else
    match s.drop whole with
    | '.' :: rest =>
      let fraction := runLength Char.isDigit rest
      if fraction = 0 then whole else whole + 1 + fraction
    | _ => whole

/-- How far the first `*/` ends from the front, if there is one. -/
def commentEnd? : List Char → Option Nat
  | [] => none
  | '*' :: '/' :: _ => some 2
  | _ :: rest => (commentEnd? rest).map (· + 1)

/-- The length of the longest prefix of `s` that the pattern matches; zero if
it matches none. -/
def reach (p : Pattern) (s : List Char) : Nat :=
  match p with
  | .number => numberLength s
  | .closedText quote =>
    match s with
    | [] => 0
    | c :: rest =>
      let body := Quoted.bodyLength quote rest
      if c = quote ∧ (rest.drop body).head? = some quote then body + 2 else 0
  | .openText quote =>
    match s with
    | [] => 0
    | c :: rest => if c = quote then Quoted.bodyLength quote rest + 1 else 0
  | .word =>
    match s with
    | [] => 0
    | c :: rest => if startsWord c then runLength continuesWord rest + 1 else 0
  | .lineComment =>
    match s with
    | '/' :: '/' :: rest => runLength (fun c => c ≠ '\n' ∧ c ≠ '\r') rest + 2
    | _ => 0
  | .blockComment =>
    match s with
    | '/' :: '*' :: rest =>
      match commentEnd? rest with
      | some n => n + 2
      | none => 0
    | _ => 0
  | .symbol sign =>
    if sign.spelling.toList.isPrefixOf s then sign.spelling.length else 0
  | .lineFeed => if s.head? = some '\n' then 1 else 0
  | .blanks => runLength isBlank s

/-- The pattern of the list that reaches farthest, with its reach; the
earlier one if two reach equally far, none if none matches. -/
def farthest? : List Pattern → List Char → Option (Pattern × Nat)
  | [], _ => none
  | p :: rest, s =>
    match farthest? rest s with
    | none => if 0 < p.reach s then some (p, p.reach s) else none
    | some (q, n) => if n ≤ p.reach s then some (p, p.reach s) else some (q, n)

/-- The pattern that matches the longest prefix of a text, with the length of
that prefix. -/
def longest? (s : List Char) : Option (Pattern × Nat) :=
  farthest? all s

theorem farthest?_pos {ps : List Pattern} {s : List Char} {p : Pattern} {n : Nat}
    (h : farthest? ps s = some (p, n)) : 0 < n := by
  induction ps generalizing p n with
  | nil => simp [farthest?] at h
  | cons q rest ih =>
    simp only [farthest?] at h
    split at h
    · split at h
      · rename_i hpos
        simp only [Option.some.injEq, Prod.mk.injEq] at h
        exact h.2 ▸ hpos
      · simp at h
    · rename_i r m hr
      have := ih hr
      split at h <;> (simp only [Option.some.injEq, Prod.mk.injEq] at h; omega)

/-- A match is never empty. -/
theorem longest?_pos {s : List Char} {p : Pattern} {n : Nat}
    (h : longest? s = some (p, n)) : 0 < n :=
  farthest?_pos h

/-- The kind of a word: a truth value, another reserved word, or a name. -/
def wordKind (word : String) : Token.Kind :=
  if word = "true" then .boolean true
  else if word = "false" then .boolean false
  else
    match Keyword.ofSpelling? word with
    | some keyword => .keyword keyword
    | none => .identifier word

/-- The kind of the token that a run of the pattern makes. -/
def kind (p : Pattern) (lexeme : List Char) : Token.Kind :=
  match p with
  | .number => .number (Decimal.ofLiteral lexeme).nearest
  | .closedText _ =>
    .text (String.ofList (Quoted.decode (lexeme.drop 1).dropLast))
  | .openText _ => .openText
  | .word => wordKind (String.ofList lexeme)
  | .lineComment => .comment
  | .blockComment => .comment
  | .symbol sign => .symbol sign
  | .lineFeed => .blank
  | .blanks => .blank

end Pattern

end TypedScript
