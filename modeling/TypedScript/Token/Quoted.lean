/-!
# Quoted text

Between its quotes a text literal holds characters that stand for themselves
and escapes, a backslash with one character behind it. A line feed may stand
in neither place. `bodyLength` says how far the body of a literal reaches, and
`decode` what it denotes.
-/

namespace TypedScript.Quoted

/-- How many characters at the front can belong to the body of a literal with
the given quote: up to the closing quote, a line feed, or the end. -/
def bodyLength (quote : Char) : List Char → Nat
  | [] => 0
  | '\\' :: [] => 0
  | '\\' :: c :: rest => if c = '\n' then 0 else bodyLength quote rest + 2
  | c :: rest => if c = quote ∨ c = '\n' then 0 else bodyLength quote rest + 1

/-- The character that a backslash and `c` stand for. -/
def escaped (c : Char) : Char :=
  match c with
  | 'n' => '\n'
  | 't' => '\t'
  | 'r' => '\r'
  | '0' => '\x00'
  | other => other

/-- The text that the body of a literal denotes. -/
def decode : List Char → List Char
  | [] => []
  | '\\' :: c :: rest => escaped c :: decode rest
  | c :: rest => c :: decode rest

end TypedScript.Quoted
