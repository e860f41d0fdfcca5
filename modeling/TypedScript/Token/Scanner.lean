import TypedScript.Token.Pattern

/-!
# Reading tokens off a text

`scan` splits a source text into tokens by longest match: at each place the
pattern that reaches farthest makes the next run. Blanks and comments are
passed over. The list ends with the end marker, or with the first fault: a
text literal that is still open, or a character that starts no pattern.
-/

namespace TypedScript

/-- Why a text cannot be split into tokens. -/
inductive ScanCause where
  | unterminatedText
  | unexpectedCharacter (character : Char)
deriving DecidableEq

instance : Cause ScanCause where
  text
    | .unterminatedText => "Unterminated string literal."
    | .unexpectedCharacter c => "Unexpected character '" ++ c.toString ++ "'."

/-- A fault met while reading tokens. -/
abbrev ScanFault := Fault ScanCause

/-- The tokens of a text that starts at `position`, up to the end marker or
the first fault. -/
def scan (rest : List Char) (position : Position) : List (Except ScanFault Token) :=
  match rest with
  | [] => [.ok ⟨.endOfInput, "", position⟩]
  | c :: cs =>
    match _hmatch : Pattern.longest? (c :: cs) with
    | none => [.error ⟨.unexpectedCharacter c, position⟩]
    | some (pattern, n) =>
      let lexeme := (c :: cs).take n
      match pattern.kind lexeme with
      | .blank => scan ((c :: cs).drop n) (position.advance lexeme)
      | .comment => scan ((c :: cs).drop n) (position.advance lexeme)
      | .openText => [.error ⟨.unterminatedText, position⟩]
      | kind =>
        .ok ⟨kind, String.ofList lexeme, position⟩ ::
          scan ((c :: cs).drop n) (position.advance lexeme)
  termination_by rest.length
  decreasing_by
    all_goals
      have := Pattern.longest?_pos _hmatch
      simp only [List.length_drop, List.length_cons]
      omega

/-- The tokens of a source text with the end marker last, or its first
fault. -/
def Token.ofSource? (source : String) : Except ScanFault (List Token) :=
  (scan source.toList .start).mapM id

/-- A source text together with the tokens that have not been asked for. -/
structure Scanner where
  source : String
  pending : List (Except ScanFault Token)

namespace Scanner

/-- A scanner at the start of a source text. -/
def ofSource (source : String) : Scanner :=
  ⟨source, scan source.toList .start⟩

/-- The scanner back at the start of its source. -/
def restart (s : Scanner) : Scanner :=
  ofSource s.source

/-- How many tokens and faults are still to come. -/
def remaining (s : Scanner) : Nat :=
  s.pending.length

/-- The next token or fault, none at the end, and the scanner behind it. -/
def next (s : Scanner) : Option (Except ScanFault Token) × Scanner :=
  (s.pending.head?, { s with pending := s.pending.tail })

/-- The scanner at its end. -/
def skipAll (s : Scanner) : Scanner :=
  { s with pending := [] }

end Scanner

end TypedScript
