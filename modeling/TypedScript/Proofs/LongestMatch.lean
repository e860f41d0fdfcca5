import Mathlib.Computability.Language
import TypedScript.Proofs.Layout

/-!
# Reading by longest match

A `Rule` declares one kind of run of characters as a regular language (`Rule.language`),
written as a regular expression would be: reserved words and names have rules of their
own, and both quotes have two. `Rule.Wins` says which rule is applied in front of a text:
one that takes the longest run, where a reserved word goes before a name. `ReadsAs` says
what the rules make of a text when the winning rule is applied again and again.

The patterns of the scanner are looked for in ways of their own; but they match the runs
of the rules and no others (`matches_of_mem_language`, `mem_language_of_matches`). So a
scan is what the rules make of the text (`scan_longest_match`).
-/

namespace TypedScript

open scoped Computability

/-! ## Rules -/

/-- The runs of one character that satisfies a condition. -/
def oneChar (p : Char → Prop) : Language Char :=
  {run | ∃ c, p c ∧ run = [c]}

/-- A text and nothing else. -/
def exactly (text : String) : Language Char :=
  {run | run = text.toList}

/-- One run of a language or several in a row. -/
def oneOrMore (l : Language Char) : Language Char :=
  l * l∗

/-- The rules by which a source text is read. -/
inductive Rule where
  | number
  | closedText (quote : Char)
  | openText (quote : Char)
  | truthValue (value : Bool)
  | keyword (word : Keyword)
  | name
  | lineComment
  | blockComment
  | symbol (sign : Symbol)
  | lineFeed
  | blanks
deriving DecidableEq

namespace Rule

/-- All rules. -/
def all : List Rule :=
  [.number, .closedText '"', .closedText '\'', .openText '"', .openText '\'',
   .truthValue true, .truthValue false, .name, .lineComment, .blockComment, .lineFeed,
   .blanks] ++ Keyword.all.map .keyword ++ Symbol.all.map .symbol

/-- Digits, one or more. -/
def digits : Language Char :=
  oneOrMore (oneChar fun c => c.isDigit = true)

/-- What stands between the quotes of a text literal: any character but the quote, a
backslash or a line feed, or a backslash with any character behind it but a line
feed. -/
def textBody (quote : Char) : Language Char :=
  (oneChar (fun c => c ≠ quote ∧ c ≠ '\\' ∧ c ≠ '\n') +
    exactly "\\" * oneChar (fun c => c ≠ '\n'))∗

/-- Any character but a star, or stars with a character behind them that is neither a star
nor a slash. -/
def commentPiece : Language Char :=
  oneChar (fun c => c ≠ '*') +
    oneOrMore (oneChar (· = '*')) * oneChar (fun c => c ≠ '*' ∧ c ≠ '/')

/-- What stands between the opening of a block comment and the stars at its end. -/
def commentBody : Language Char :=
  commentPiece∗

/-- The runs of characters that a rule is for. -/
def language : Rule → Language Char
  | .number => digits * (1 + exactly "." * digits)
  | .closedText quote => oneChar (· = quote) * textBody quote * oneChar (· = quote)
  | .openText quote => oneChar (· = quote) * textBody quote
  | .truthValue value => exactly (if value then "true" else "false")
  | .keyword word => exactly word.spelling
  | .name => oneChar (fun c => c.isAlpha = true ∨ c = '_' ∨ c = '$') *
      (oneChar fun c => c.isAlpha = true ∨ c = '_' ∨ c = '$' ∨ c.isDigit = true)∗
  | .lineComment => exactly "//" * (oneChar fun c => c ≠ '\n' ∧ c ≠ '\r')∗
  | .blockComment => exactly "/*" * commentBody * oneOrMore (oneChar (· = '*')) * exactly "/"
  | .symbol sign => exactly sign.spelling
  | .lineFeed => exactly "\n"
  | .blanks => oneOrMore (oneChar fun c => c = ' ' ∨ c = '\t' ∨ c = '\r' ∨ c = '\x0c')

/-- The rules of reserved words and truth values. -/
def isReserved : Rule → Bool
  | .truthValue _ | .keyword _ => true
  | _ => false

/-- The kind of the token that a rule makes of a run, if it makes one. -/
def kind? : Rule → List Char → Option Token.Kind
  | .number, run => some (.number (Decimal.ofLiteral run).nearest)
  | .closedText _, run => some (.text (String.ofList (Quoted.decode (run.drop 1).dropLast)))
  | .truthValue value, _ => some (.boolean value)
  | .keyword word, _ => some (.keyword word)
  | .name, run => some (.identifier (String.ofList run))
  | .symbol sign, _ => some (.symbol sign)
  | _, _ => none

/-- The rules whose runs are passed over. -/
def isSkipped : Rule → Bool
  | .lineComment | .blockComment | .lineFeed | .blanks => true
  | _ => false

/-- A rule is applied to a run in front of the rest of a text: no rule is for a longer
run there, and a name is not reserved. -/
structure Wins (r : Rule) (run rest : List Char) : Prop where
  declared : r ∈ all
  mem : run ∈ r.language
  nonempty : run ≠ []
  longest : ∀ q ∈ all, ∀ other ∈ q.language, other <+: run ++ rest → other.length ≤ run.length
  reserved : r = .name → ∀ q ∈ all, q.isReserved = true → run ∉ q.language

end Rule

/-- What the rules make of a text that starts at a position. -/
inductive ReadsAs : List Char → Position → List (Except ScanFault Token) → Prop where
  | done {position : Position} : ReadsAs [] position [.ok ⟨.endOfInput, "", position⟩]
  | stuck {c : Char} {rest : List Char} {position : Position} :
      (∀ r ∈ Rule.all, ∀ run ∈ r.language, run ≠ [] → ¬ run <+: c :: rest) →
      ReadsAs (c :: rest) position [.error ⟨.unexpectedCharacter c, position⟩]
  | unclosed {quote : Char} {run rest : List Char} {position : Position} :
      (Rule.openText quote).Wins run rest →
      ReadsAs (run ++ rest) position [.error ⟨.unterminatedText, position⟩]
  | skipped {r : Rule} {run rest : List Char} {position : Position}
      {items : List (Except ScanFault Token)} : r.Wins run rest → r.isSkipped = true →
      ReadsAs rest (position.advance run) items → ReadsAs (run ++ rest) position items
  | token {r : Rule} {run rest : List Char} {position : Position} {kind : Token.Kind}
      {items : List (Except ScanFault Token)} : r.Wins run rest → r.kind? run = some kind →
      ReadsAs rest (position.advance run) items →
      ReadsAs (run ++ rest) position (.ok ⟨kind, String.ofList run, position⟩ :: items)

/-! ## Languages of the rules -/

section Languages

variable {p : Char → Prop} {l : Language Char} {run : List Char} {c : Char}

theorem singleton_mem_oneChar : [c] ∈ oneChar p ↔ p c := by
  constructor
  · rintro ⟨d, hd, heq⟩
    obtain rfl : c = d := (List.cons.inj heq).1
    exact hd
  · intro hc
    exact ⟨c, hc, rfl⟩

theorem mem_exactly {text : String} : run ∈ exactly text ↔ run = text.toList := Iff.rfl

/-- Runs of a language in a row are taken one by one. -/
theorem star_induction {P : List Char → Prop} (hnil : P [])
    (hcons : ∀ first ∈ l, ∀ rest, P rest → P (first ++ rest)) : ∀ run ∈ l∗, P run := by
  intro run hrun
  rw [Language.mem_kstar] at hrun
  obtain ⟨parts, rfl, hparts⟩ := hrun
  induction parts with
  | nil => exact hnil
  | cons first parts ih =>
    rw [List.flatten_cons]
    exact hcons first (hparts first List.mem_cons_self) _
      (ih fun part hpart => hparts part (List.mem_cons_of_mem _ hpart))

theorem append_mem_star {first rest : List Char} (hfirst : first ∈ l) (hrest : rest ∈ l∗) :
    first ++ rest ∈ l∗ := by
  have hle : l * l∗ ≤ l∗ := mul_kstar_le_kstar
  exact hle (Language.append_mem_mul hfirst hrest)

theorem mem_star_oneChar : run ∈ (oneChar p)∗ ↔ ∀ c ∈ run, p c := by
  constructor
  · refine star_induction (P := fun run => ∀ c ∈ run, p c) (fun c hc => nomatch hc) ?_ run
    rintro first ⟨c, hc, rfl⟩ rest hrest
    exact List.forall_mem_cons.mpr ⟨hc, hrest⟩
  · intro h
    induction run with
    | nil => exact Language.nil_mem_kstar _
    | cons c run ih =>
      obtain ⟨hc, hrun⟩ := List.forall_mem_cons.mp h
      exact append_mem_star (singleton_mem_oneChar.mpr hc) (ih hrun)

theorem mem_oneOrMore_oneChar : run ∈ oneOrMore (oneChar p) ↔ run ≠ [] ∧ ∀ c ∈ run, p c := by
  unfold oneOrMore
  rw [Language.mem_mul]
  constructor
  · rintro ⟨first, ⟨c, hc, rfl⟩, rest, hrest, rfl⟩
    exact ⟨List.cons_ne_nil _ _, List.forall_mem_cons.mpr ⟨hc, mem_star_oneChar.mp hrest⟩⟩
  · rintro ⟨hne, h⟩
    cases run with
    | nil => exact absurd rfl hne
    | cons c run =>
      obtain ⟨hc, hrun⟩ := List.forall_mem_cons.mp h
      exact ⟨[c], singleton_mem_oneChar.mpr hc, run, mem_star_oneChar.mpr hrun, rfl⟩

end Languages

/-! ## Rules and patterns -/

section Comments

variable {stars rest : List Char}

/-- Stars with no slash behind them end no comment. -/
theorem not_closed_of_stars (hstars : ∀ c ∈ stars, c = '*') (hslash : rest.head? ≠ some '/')
    (hrest : ¬ ['*', '/'] <:+: rest) : ¬ ['*', '/'] <:+: stars ++ rest := by
  induction stars with
  | nil => exact hrest
  | cons c stars ih =>
    obtain ⟨-, hstars'⟩ := List.forall_mem_cons.mp hstars
    rw [List.cons_append, List.infix_cons_iff, not_or]
    refine ⟨fun hfront => ?_, ih hstars'⟩
    obtain ⟨-, behind, hbehind⟩ := List.cons_prefix_cons.mp hfront
    cases stars with
    | nil => exact hslash (by rw [← List.nil_append rest, ← hbehind]; rfl)
    | cons d stars =>
      obtain rfl : '/' = d := (List.cons.inj hbehind).1
      exact absurd (hstars' _ List.mem_cons_self) (by decide)

theorem not_closed_cons {c : Char} (hc : c ≠ '*') (hrest : ¬ ['*', '/'] <:+: rest) :
    ¬ ['*', '/'] <:+: c :: rest := by
  rw [List.infix_cons_iff, not_or]
  exact ⟨fun hfront => hc (List.cons_prefix_cons.mp hfront).1.symm, hrest⟩

/-- The body of a block comment holds no end of a comment, and none comes about with the
stars behind it. -/
theorem commentBody_not_closed {body : List Char} (hbody : body ∈ Rule.commentBody) :
    ∀ stars : List Char, (∀ c ∈ stars, c = '*') → ¬ ['*', '/'] <:+: body ++ stars := by
  refine star_induction (P := fun body => ∀ stars : List Char, (∀ c ∈ stars, c = '*') →
    ¬ ['*', '/'] <:+: body ++ stars) ?_ ?_ body hbody
  · intro stars hstars hend
    exact absurd (hstars '/' (hend.subset (by simp))) (by decide)
  · rintro first hfirst rest ih stars hstars
    rw [List.append_assoc]
    rcases (Language.mem_add _ _ _).mp hfirst with ⟨c, hc, rfl⟩ | hfirst
    · exact not_closed_cons hc (ih stars hstars)
    · obtain ⟨front, hfront, _, ⟨c, ⟨hstar, hslash⟩, rfl⟩, rfl⟩ := Language.mem_mul.mp hfirst
      rw [List.append_assoc]
      refine not_closed_of_stars (mem_oneOrMore_oneChar.mp hfront).2 ?_
        (not_closed_cons hstar (ih stars hstars))
      exact fun hhead => hslash (Option.some.inj hhead)

/-- Stars and the next character make a piece of a comment, unless they end it. -/
theorem mem_commentPiece {c : Char} (hstars : ∀ d ∈ stars, d = '*') (hc : c ≠ '*')
    (hopen : ¬ ['*', '/'] <:+: stars ++ c :: rest) : stars ++ [c] ∈ Rule.commentPiece := by
  unfold Rule.commentPiece
  rw [Language.mem_add]
  by_cases hnil : stars = []
  · subst hnil
    exact .inl (singleton_mem_oneChar.mpr hc)
  · refine .inr (Language.append_mem_mul (mem_oneOrMore_oneChar.mpr ⟨hnil, hstars⟩)
      (singleton_mem_oneChar.mpr ⟨hc, ?_⟩))
    -- a slash would end a comment together with the last of the stars
    rintro rfl
    obtain ⟨before, last, rfl⟩ := (List.eq_nil_or_concat' stars).resolve_left hnil
    obtain rfl : last = '*' := hstars last (by simp)
    exact hopen ⟨before, rest, by simp⟩

/-- A text in which no comment ends is the body of a comment with stars behind it. The
stars that have been read are kept in front until it is known what follows them. -/
theorem exists_commentBody (stars body : List Char) (hstars : ∀ c ∈ stars, c = '*')
    (h : ¬ ['*', '/'] <:+: stars ++ (body ++ ['*'])) :
    ∃ front ∈ Rule.commentBody, ∃ behind : List Char, (∀ c ∈ behind, c = '*') ∧
      stars ++ body = front ++ behind := by
  induction body generalizing stars with
  | nil => exact ⟨[], Language.nil_mem_kstar _, stars, hstars, List.append_nil stars⟩
  | cons c body ih =>
    by_cases hc : c = '*'
    · subst hc
      have hstars' : ∀ d ∈ stars ++ ['*'], d = '*' :=
        List.forall_mem_append.mpr ⟨hstars, by simp⟩
      obtain ⟨front, hfront, behind, hbehind, heq⟩ := ih (stars ++ ['*']) hstars' (by simpa using h)
      exact ⟨front, hfront, behind, hbehind, by simpa using heq⟩
    · have hbody : ¬ ['*', '/'] <:+: [] ++ (body ++ ['*']) := fun hend =>
        h (hend.trans ((List.suffix_cons c _).trans (List.suffix_append stars _)).isInfix)
      obtain ⟨front, hfront, behind, hbehind, heq⟩ := ih [] (by simp) hbody
      rw [List.nil_append] at heq
      refine ⟨stars ++ [c] ++ front, append_mem_star (mem_commentPiece hstars hc h) hfront, behind,
        hbehind, ?_⟩
      rw [List.append_assoc _ front, ← heq]
      simp

end Comments

/-- What stands between the quotes of a text literal. -/
theorem mem_textBody {quote : Char} {run : List Char} :
    run ∈ Rule.textBody quote ↔ Quoted.IsBody quote run := by
  constructor
  · refine star_induction (P := Quoted.IsBody quote) .nil ?_ run
    intro first hfirst rest hrest
    rcases (Language.mem_add _ _ _).mp hfirst with ⟨c, ⟨hquote, hescape, hline⟩, rfl⟩ | hfirst
    · exact .plain hquote hescape hline hrest
    · obtain ⟨_, rfl, _, ⟨c, hline, rfl⟩, rfl⟩ := Language.mem_mul.mp hfirst
      exact .escape hline hrest
  · intro h
    induction h with
    | nil => exact Language.nil_mem_kstar _
    | @plain c body hquote hescape hline _ ih =>
      have hfirst : [c] ∈ oneChar (fun c => c ≠ quote ∧ c ≠ '\\' ∧ c ≠ '\n') :=
        singleton_mem_oneChar.mpr ⟨hquote, hescape, hline⟩
      exact append_mem_star (.inl hfirst) ih
    | @escape c body hline _ ih =>
      have hfirst : ['\\'] ++ [c] ∈ exactly "\\" * oneChar (fun c => c ≠ '\n') :=
        Language.append_mem_mul (mem_exactly.mpr rfl) (singleton_mem_oneChar.mpr hline)
      exact append_mem_star (.inr hfirst) ih

namespace Rule

open Pattern

variable {r : Rule} {p : Pattern} {run rest : List Char}

/-- The pattern by which the runs of a rule are looked for. -/
def pattern : Rule → Pattern
  | .number => .number
  | .closedText quote => .closedText quote
  | .openText quote => .openText quote
  | .truthValue _ | .keyword _ | .name => .word
  | .lineComment => .lineComment
  | .blockComment => .blockComment
  | .symbol sign => .symbol sign
  | .lineFeed => .lineFeed
  | .blanks => .blanks

/-- The rule for all that a pattern matches: every word may be a name. -/
def ofPattern : Pattern → Rule
  | .number => .number
  | .closedText quote => .closedText quote
  | .openText quote => .openText quote
  | .word => .name
  | .lineComment => .lineComment
  | .blockComment => .blockComment
  | .symbol sign => .symbol sign
  | .lineFeed => .lineFeed
  | .blanks => .blanks

theorem pattern_ofPattern (p : Pattern) : (ofPattern p).pattern = p := by
  cases p <;> rfl

/-- All rules are those whose patterns are tried. -/
theorem mem_all_iff : r ∈ all ↔ r.pattern ∈ Pattern.all := by
  cases r with
  | keyword word => simp [all, pattern, Pattern.all, Keyword.mem_all]
  | symbol sign => simp [all, pattern, Pattern.all, Symbol.mem_all]
  | truthValue value => cases value <;> simp [all, pattern, Pattern.all]
  | _ => simp [all, pattern, Pattern.all]

theorem ofPattern_mem_all (hp : p ∈ Pattern.all) : ofPattern p ∈ all := by
  rwa [mem_all_iff, pattern_ofPattern]

theorem mem_digits : run ∈ digits ↔ IsRun Char.isDigit run := by
  rw [digits, mem_oneOrMore_oneChar]
  exact ⟨fun h => ⟨h.1, h.2⟩, fun h => ⟨h.nonempty, h.all⟩⟩

theorem mem_number : run ∈ number.language ↔ Matches .number run := by
  rw [language, Language.mem_mul]
  constructor
  · rintro ⟨whole, hwhole, behind, hbehind, rfl⟩
    rw [mem_digits] at hwhole
    rcases (Language.mem_add _ _ _).mp hbehind with rfl | hbehind
    · rw [List.append_nil]
      exact .whole hwhole
    · obtain ⟨_, rfl, fraction, hfraction, rfl⟩ := Language.mem_mul.mp hbehind
      exact .decimal hwhole (mem_digits.mp hfraction)
  · intro h
    cases h with
    | whole hwhole =>
      exact ⟨run, mem_digits.mpr hwhole, [], .inl rfl, List.append_nil run⟩
    | @decimal whole fraction hwhole hfraction =>
      exact ⟨whole, mem_digits.mpr hwhole, '.' :: fraction,
        .inr ⟨['.'], rfl, fraction, mem_digits.mpr hfraction, rfl⟩, rfl⟩

theorem mem_name : run ∈ name.language ↔ Matches .word run := by
  have hstarts (c : Char) : startsWord c = true ↔ c.isAlpha = true ∨ c = '_' ∨ c = '$' := by
    simp [startsWord, or_assoc]
  have hgoesOn (c : Char) : continuesWord c = true ↔
      c.isAlpha = true ∨ c = '_' ∨ c = '$' ∨ c.isDigit = true := by
    simp [continuesWord, startsWord, or_assoc]
  rw [language, Language.mem_mul]
  constructor
  · rintro ⟨_, ⟨first, hfirst, rfl⟩, rest, hrest, rfl⟩
    exact .word ((hstarts first).mpr hfirst)
      fun c hc => (hgoesOn c).mpr (mem_star_oneChar.mp hrest c hc)
  · intro h
    cases h with
    | @word first rest hfirst hrest =>
      exact ⟨[first], singleton_mem_oneChar.mpr ((hstarts first).mp hfirst), rest,
        mem_star_oneChar.mpr fun c hc => (hgoesOn c).mp (hrest c hc), rfl⟩

theorem mem_blockComment : run ∈ blockComment.language ↔ Matches .blockComment run := by
  rw [language, Language.mem_mul]
  constructor
  · rintro ⟨opened, hopened, _, rfl, rfl⟩
    obtain ⟨front, hfront, stars, hstars, rfl⟩ := Language.mem_mul.mp hopened
    obtain ⟨_, rfl, body, hbody, rfl⟩ := Language.mem_mul.mp hfront
    obtain ⟨hne, hstars⟩ := mem_oneOrMore_oneChar.mp hstars
    have hopen := commentBody_not_closed hbody stars hstars
    obtain ⟨before, last, rfl⟩ := (List.eq_nil_or_concat' stars).resolve_left hne
    obtain rfl : last = '*' := hstars last (by simp)
    rw [← List.append_assoc] at hopen
    have hmatches := Matches.blockComment hopen
    simpa using hmatches
  · intro h
    cases h with
    | @blockComment body hopen =>
      obtain ⟨front, hfront, stars, hstars, heq⟩ := exists_commentBody [] body (by simp) hopen
      rw [List.nil_append] at heq
      have hstars' : stars ++ ['*'] ∈ oneOrMore (oneChar (· = '*')) :=
        mem_oneOrMore_oneChar.mpr ⟨by simp, List.forall_mem_append.mpr ⟨hstars, by simp⟩⟩
      refine ⟨_, Language.append_mem_mul (Language.append_mem_mul (mem_exactly.mpr rfl) hfront)
        hstars', _, mem_exactly.mpr rfl, ?_⟩
      simp [heq]

theorem matches_word {first : Char} (hfirst : startsWord first = true)
    (hrest : rest.all continuesWord = true) : Matches .word (first :: rest) :=
  .word hfirst (List.all_eq_true.mp hrest)

/-- What a rule is for is matched by the pattern of the rule. -/
theorem matches_of_mem_language (h : run ∈ r.language) : r.pattern.Matches run := by
  cases r with
  | number => exact mem_number.mp h
  | closedText quote =>
    obtain ⟨front, hfront, _, ⟨_, rfl, rfl⟩, rfl⟩ := Language.mem_mul.mp h
    obtain ⟨_, ⟨_, rfl, rfl⟩, body, hbody, rfl⟩ := Language.mem_mul.mp hfront
    exact .closedText (mem_textBody.mp hbody)
  | openText quote =>
    obtain ⟨_, ⟨_, rfl, rfl⟩, body, hbody, rfl⟩ := Language.mem_mul.mp h
    exact .openText (mem_textBody.mp hbody)
  -- reserved words are matched by the pattern of names
  | truthValue value =>
    obtain rfl := mem_exactly.mp h
    cases value <;> exact matches_word rfl rfl
  | keyword word =>
    obtain rfl := mem_exactly.mp h
    cases word <;> exact matches_word rfl rfl
  | name => exact mem_name.mp h
  | lineComment =>
    obtain ⟨_, rfl, body, hbody, rfl⟩ := Language.mem_mul.mp h
    exact .lineComment (mem_star_oneChar.mp hbody)
  | blockComment => exact mem_blockComment.mp h
  | symbol sign =>
    obtain rfl := mem_exactly.mp h
    exact .symbol sign
  | lineFeed =>
    obtain rfl := mem_exactly.mp h
    exact .lineFeed
  | blanks =>
    obtain ⟨hne, hblank⟩ := mem_oneOrMore_oneChar.mp h
    exact .blanks ⟨hne, fun c hc => by simpa [isBlank, or_assoc] using hblank c hc⟩

/-- What a pattern matches is a run of the rule that stands for the pattern. -/
theorem mem_language_of_matches (h : p.Matches run) : run ∈ (ofPattern p).language := by
  cases h with
  | whole hwhole => exact mem_number.mpr (.whole hwhole)
  | decimal hwhole hfraction => exact mem_number.mpr (.decimal hwhole hfraction)
  | @closedText quote body hbody =>
    have hquote : [quote] ∈ oneChar (· = quote) := singleton_mem_oneChar.mpr rfl
    exact Language.append_mem_mul (Language.append_mem_mul hquote (mem_textBody.mpr hbody)) hquote
  | @openText quote body hbody =>
    have hquote : [quote] ∈ oneChar (· = quote) := singleton_mem_oneChar.mpr rfl
    exact Language.append_mem_mul hquote (mem_textBody.mpr hbody)
  | word hfirst hrest => exact mem_name.mpr (.word hfirst hrest)
  | lineComment hbody =>
    exact Language.append_mem_mul (mem_exactly.mpr rfl) (mem_star_oneChar.mpr hbody)
  | blockComment hopen => exact mem_blockComment.mpr (.blockComment hopen)
  | symbol sign => exact mem_exactly.mpr rfl
  | lineFeed => exact mem_exactly.mpr rfl
  | blanks hblanks =>
    refine mem_oneOrMore_oneChar.mpr ⟨hblanks.nonempty, fun c hc => ?_⟩
    simpa [isBlank, or_assoc] using hblanks.all c hc

/-! ## The rule that is applied -/

theorem mem_all_of_isReserved (h : r.isReserved = true) : r ∈ all := by
  have hword : r.pattern = .word := by
    cases r <;> first | rfl | cases h
  rw [mem_all_iff, hword]
  decide

/-- A word that is not reserved is a name. -/
theorem wordKind_of_not_reserved
    (h : ∀ q ∈ all, q.isReserved = true → run ∉ q.language) :
    wordKind (String.ofList run) = .identifier (String.ofList run) := by
  have hvalue (value : Bool) : String.ofList run ≠ if value then "true" else "false" := by
    intro heq
    refine h (.truthValue value) (mem_all_of_isReserved rfl) rfl (mem_exactly.mpr ?_)
    rw [← heq, String.toList_ofList]
  have hkeyword : Keyword.ofSpelling? (String.ofList run) = none := by
    refine List.find?_eq_none.mpr fun word hword hspelling => ?_
    refine h (.keyword word) (mem_all_of_isReserved rfl) rfl (mem_exactly.mpr ?_)
    rw [of_decide_eq_true hspelling, String.toList_ofList]
  have htrue : String.ofList run ≠ "true" := hvalue true
  have hfalse : String.ofList run ≠ "false" := hvalue false
  rw [wordKind, if_neg htrue, if_neg hfalse, hkeyword]

/-- The rule that is applied to a run makes a token of it if its pattern does, and the
same token. -/
theorem kind?_eq (hmem : run ∈ r.language)
    (hname : r = .name → ∀ q ∈ all, q.isReserved = true → run ∉ q.language) :
    r.kind? run = if r.pattern.isToken then some (r.pattern.kind run) else none := by
  cases r with
  | truthValue value =>
    obtain rfl := mem_exactly.mp hmem
    cases value <;> rfl
  | keyword word =>
    obtain rfl := mem_exactly.mp hmem
    cases word <;> rfl
  | name =>
    show some (.identifier (String.ofList run)) = some (wordKind (String.ofList run))
    rw [wordKind_of_not_reserved (hname rfl)]
  | _ => rfl

/-- A rule is applied to a run if the pattern that is picked is the one of the rule. -/
theorem wins_iff : r.Wins run rest ↔
    longest? (run ++ rest) = some (r.pattern, run.length) ∧ run ∈ r.language ∧
      (r = .name → ∀ q ∈ all, q.isReserved = true → run ∉ q.language) := by
  constructor
  · intro h
    refine ⟨longest?_eq_some_iff.mpr ⟨mem_all_iff.mp h.declared, by simp, ?_, ?_⟩, h.mem,
      h.reserved⟩
    · simpa using matches_of_mem_language h.mem
    · intro p hp other hother hfront
      exact h.longest _ (ofPattern_mem_all hp) other (mem_language_of_matches hother) hfront
  · rintro ⟨hlongest, hmem, hreserved⟩
    obtain ⟨hp, -, -, hmax⟩ := longest?_eq_some_iff.mp hlongest
    refine ⟨mem_all_iff.mpr hp, hmem, (matches_of_mem_language hmem).ne_nil, ?_, hreserved⟩
    intro q hq other hother hfront
    exact hmax _ (mem_all_iff.mp hq) other (matches_of_mem_language hother) hfront

/-- Whatever pattern is picked for a text, one of the rules is applied: a reserved word if
the run is one, and else the rule that stands for the pattern. -/
theorem exists_wins (h : longest? (run ++ rest) = some (p, run.length)) :
    ∃ r : Rule, r.pattern = p ∧ r.Wins run rest := by
  have hmatches := matches_of_longest h
  by_cases hreserved : ∃ q ∈ all, q.isReserved = true ∧ run ∈ q.language
  · obtain ⟨q, hq, hq', hmem⟩ := hreserved
    obtain rfl := (matches_of_mem_language hmem).unique hmatches (mem_all_iff.mp hq)
      (mem_all_of_longest h)
    refine ⟨q, rfl, wins_iff.mpr ⟨h, hmem, ?_⟩⟩
    rintro rfl
    cases hq'
  · push Not at hreserved
    rw [← pattern_ofPattern p] at h
    exact ⟨ofPattern p, pattern_ofPattern p,
      wins_iff.mpr ⟨h, mem_language_of_matches hmatches, fun _ => hreserved⟩⟩

/-- No pattern is picked only if no rule is for a run in front of the text. -/
theorem longest?_eq_none_iff_rules {s : List Char} :
    longest? s = none ↔ ∀ r ∈ all, ∀ run ∈ r.language, run ≠ [] → ¬ run <+: s := by
  rw [longest?_eq_none_iff]
  constructor
  · intro h r hr run hrun _
    exact h _ (mem_all_iff.mp hr) run (matches_of_mem_language hrun)
  · intro h p hp run hrun
    exact h _ (ofPattern_mem_all hp) run (mem_language_of_matches hrun) hrun.ne_nil

theorem isSkipped_eq (r : Rule) : r.isSkipped = r.pattern.isGap := by
  cases r <;> rfl

theorem eq_openText_of_pattern {quote : Char} (h : r.pattern = .openText quote) :
    r = .openText quote := by
  cases r <;> cases h
  rfl

theorem Wins.longest? (h : r.Wins run rest) :
    Pattern.longest? (run ++ rest) = some (r.pattern, run.length) :=
  (wins_iff.mp h).1

theorem Wins.kind? (h : r.Wins run rest) :
    r.kind? run = if r.pattern.isToken then some (r.pattern.kind run) else none :=
  kind?_eq h.mem h.reserved

end Rule

/-! ## Scans -/

section Scans

open Pattern

variable {s : List Char} {position : Position} {items : List (Except ScanFault Token)}

/-- What the rules make of a text is its scan. -/
theorem ReadsAs.eq_scan (h : ReadsAs s position items) : items = scan s position := by
  induction h with
  | done => rw [scan.eq_def]
  | stuck hnone => rw [scan_of_none (Rule.longest?_eq_none_iff_rules.mpr hnone)]
  | unclosed hwins => rw [scan_of_openText hwins.longest?]
  | skipped hwins hskipped _ ih =>
    rw [Rule.isSkipped_eq] at hskipped
    rw [scan_of_gap hskipped hwins.longest?, ih]
  | token hwins hkind _ ih =>
    rw [hwins.kind?] at hkind
    split at hkind
    · next htoken =>
      obtain rfl := Option.some.inj hkind
      rw [scan_of_token htoken hwins.longest?, ih]
    · cases hkind

/-- Every step of a scan is one by the rules. -/
theorem Scans.reads (h : Scans s position items) : ReadsAs s position items := by
  induction h with
  | done => exact .done
  | stuck hnone => exact .stuck (Rule.longest?_eq_none_iff_rules.mp hnone)
  | unclosed hlongest =>
    obtain ⟨r, hr, hwins⟩ := Rule.exists_wins hlongest
    obtain rfl := Rule.eq_openText_of_pattern hr
    exact .unclosed hwins
  | gap hgap hlongest _ ih =>
    obtain ⟨r, rfl, hwins⟩ := Rule.exists_wins hlongest
    rw [← Rule.isSkipped_eq] at hgap
    exact .skipped hwins hgap ih
  | token htoken hlongest _ ih =>
    obtain ⟨r, rfl, hwins⟩ := Rule.exists_wins hlongest
    refine .token hwins ?_ ih
    rw [hwins.kind?, if_pos htoken]

/-- A fault is blamed where the text starts or further on. -/
theorem Scans.le_fault (h : Scans s position items) {fault : ScanFault}
    (hfault : .error fault ∈ items) :
    position = fault.position ∨ position.IsBefore fault.position := by
  induction h with
  | done => simp at hfault
  | stuck | unclosed =>
    obtain rfl : fault = _ := by simpa using hfault
    exact .inl rfl
  | @gap p run rest position items hgap hlongest _ ih =>
    have hstep := Position.IsBefore.advance_of_ne_nil position (matches_of_longest hlongest).ne_nil
    exact .inr (hstep.of_or (ih hfault))
  | @token p run rest position items htoken hlongest _ ih =>
    have hstep := Position.IsBefore.advance_of_ne_nil position (matches_of_longest hlongest).ne_nil
    exact .inr (hstep.of_or (ih (by simpa using hfault)))

/-- A scan that only has a fault to give where it starts has found it there. -/
theorem Scans.fault_cases {cause : ScanCause}
    (h : Scans s position [.error ⟨cause, position⟩]) :
    (∃ c, cause = .unexpectedCharacter c ∧ s.head? = some c ∧ longest? s = none) ∨
      cause = .unterminatedText ∧
        ∃ quote run rest, s = run ++ rest ∧
          longest? (run ++ rest) = some (.openText quote, run.length) := by
  cases h with
  | stuck hnone => exact .inl ⟨_, rfl, rfl, hnone⟩
  | unclosed hlongest => exact .inr ⟨rfl, _, _, _, rfl, hlongest⟩
  | @gap p run rest _ _ hgap hlongest htail =>
    have hstep := Position.IsBefore.advance_of_ne_nil position (matches_of_longest hlongest).ne_nil
    exact absurd rfl (hstep.of_or (htail.le_fault List.mem_cons_self)).ne

/-! ## Comments that are not closed -/

variable {sign : Symbol} {rest : List Char}

/-- A symbol is picked if no longer one stands there and no comment begins. -/
theorem longest?_of_symbol
    (hsymbol : ∀ other : Symbol, other.spelling.toList <+: sign.spelling.toList ++ rest →
      other.spelling.toList.length ≤ sign.spelling.toList.length)
    (hcomment : ∀ run, Matches .lineComment run ∨ Matches .blockComment run →
      ¬ run <+: sign.spelling.toList ++ rest) :
    longest? (sign.spelling.toList ++ rest) =
      some (.symbol sign, sign.spelling.toList.length) := by
  have hall : .symbol sign ∈ Pattern.all := by simp [Pattern.all, Symbol.mem_all]
  refine longest?_eq_some_iff.mpr ⟨hall, by simp, by simpa using .symbol sign, ?_⟩
  intro q hq run hrun hfront
  have hsame : q.opening = .sign := by
    cases hspelling : sign.spelling.toList with
    | nil => exact absurd hspelling (Matches.symbol sign).ne_nil
    | cons c tail =>
      have hsign := Matches.symbol sign
      rw [hspelling] at hfront hsign
      cases run with
      | nil => exact absurd rfl hrun.ne_nil
      | cons d run =>
        obtain rfl : d = c := (List.cons_prefix_cons.mp hfront).1
        exact (hrun.opening_eq hq).trans (hsign.opening_eq hall).symm
  obtain rfl | rfl | ⟨other, rfl⟩ := sign_of_opening hsame
  · exact absurd hfront (hcomment run (.inl hrun))
  · exact absurd hfront (hcomment run (.inr hrun))
  · cases hrun
    exact hsymbol other hfront

theorem scan_of_symbol (sign : Symbol)
    (h : longest? (sign.spelling.toList ++ rest) =
      some (.symbol sign, sign.spelling.toList.length)) :
    scan (sign.spelling.toList ++ rest) position =
      .ok ⟨.symbol sign, sign.spelling, position⟩ ::
        scan rest (position.advance sign.spelling.toList) := by
  rw [scan_of_token rfl h, String.ofList_toList]
  rfl

/-- If a block comment is not closed, its slash is a symbol. -/
theorem scan_slash (h : ¬ ['*', '/'] <:+: rest) :
    scan ('/' :: '*' :: rest) position =
      .ok ⟨.symbol .slash, "/", position⟩ :: scan ('*' :: rest) (position.step '/') := by
  refine scan_of_symbol .slash (longest?_of_symbol (fun other hother => ?_) ?_)
  · change other.spelling.toList <+: '/' :: '*' :: rest at hother
    match hspelling : other.spelling.toList with
    | [] | [_] => simp [Symbol.spelling]
    | c :: d :: tail =>
      -- it would be written as a comment begins
      rw [hspelling] at hother
      obtain ⟨rfl, htail⟩ := List.cons_prefix_cons.mp hother
      obtain ⟨rfl, -⟩ := List.cons_prefix_cons.mp htail
      exact absurd hspelling (spelling_ne_comment other tail).2
  · rintro run (hrun | hrun) hfront
    · cases hrun
      simp [Symbol.spelling] at hfront
    · cases hrun with
      | @blockComment body _ =>
        have hend : body ++ ['*', '/'] <+: rest := by
          simpa [Symbol.spelling] using hfront
        exact h ((List.suffix_append body _).isInfix.trans hend.isInfix)

/-- The symbols that begin with a star. -/
theorem symbol_of_star {other : Symbol} (h : other.spelling.toList <+: '*' :: rest) :
    other = .star ∨ other = .timesAssign ∧ rest.head? = some '=' := by
  have hhead : other.spelling.toList.head? = some '*' := by
    obtain ⟨c, tail, hspelling⟩ := List.exists_cons_of_ne_nil (Matches.symbol other).ne_nil
    rw [hspelling] at h ⊢
    rw [(List.cons_prefix_cons.mp h).1, List.head?_cons]
  have hother : other = .star ∨ other = .timesAssign := by
    revert hhead
    cases other <;> decide
  refine hother.imp_right fun heq => ⟨heq, ?_⟩
  subst heq
  obtain ⟨behind, hbehind⟩ := h
  rw [← (List.cons.inj hbehind).2]
  rfl

/-- A star is a symbol together with an equals sign behind it, and alone otherwise. -/
theorem scan_star (rest : List Char) (position : Position) :
    ∃ sign behind, '*' :: rest = (Symbol.spelling sign).toList ++ behind ∧
      (sign = .timesAssign ∨ sign = .star ∧ behind.head? ≠ some '=') ∧
      scan ('*' :: rest) position =
        .ok ⟨.symbol sign, sign.spelling, position⟩ ::
          scan behind (position.advance sign.spelling.toList) := by
  have hcomment (run : List Char)
      (hrun : Matches .lineComment run ∨ Matches .blockComment run) : ¬ run <+: '*' :: rest := by
    rcases hrun with hrun | hrun <;> cases hrun <;> simp
  by_cases hequal : rest.head? = some '='
  · obtain ⟨behind, rfl⟩ := List.head?_eq_some_iff.mp hequal
    refine ⟨.timesAssign, behind, rfl, .inl rfl, scan_of_symbol .timesAssign ?_⟩
    refine longest?_of_symbol (fun other hother => ?_) hcomment
    obtain rfl | ⟨rfl, -⟩ := symbol_of_star hother <;> decide
  · refine ⟨.star, rest, rfl, .inr ⟨rfl, hequal⟩, scan_of_symbol .star ?_⟩
    refine longest?_of_symbol (fun other hother => ?_) hcomment
    obtain rfl | ⟨-, hhead⟩ := symbol_of_star hother
    · exact Nat.le_refl _
    · exact absurd hhead hequal

end Scans

/-- A scan is what the rules make of a text when the one that is for the longest run is
applied again and again. A text literal is reported to be open where the longest run is
one that is not closed, and a character to be unexpected where no rule is for a run. If a
block comment is not closed, its opening is read as the symbols that it is made of. -/
theorem scan_longest_match (text : List Char) (position : Position) :
    (∀ items, ReadsAs text position items ↔ items = scan text position) ∧
    (scan text position = [.error ⟨.unterminatedText, position⟩] ↔
      ∃ quote run rest, text = run ++ rest ∧ (Rule.openText quote).Wins run rest) ∧
    (∀ c, scan text position = [.error ⟨.unexpectedCharacter c, position⟩] ↔
      text.head? = some c ∧
        ∀ r ∈ Rule.all, ∀ run ∈ r.language, run ≠ [] → ¬ run <+: text) ∧
    ∀ rest, text = '/' :: '*' :: rest → ¬ ['*', '/'] <:+: rest →
      ∃ sign behind, '*' :: rest = (Symbol.spelling sign).toList ++ behind ∧
        (sign = .timesAssign ∨ sign = .star ∧ behind.head? ≠ some '=') ∧
        scan text position =
          .ok ⟨.symbol .slash, "/", position⟩ ::
            .ok ⟨.symbol sign, sign.spelling, position.step '/'⟩ ::
              scan behind ((position.step '/').advance sign.spelling.toList) := by
  have hscans := scans text position
  refine ⟨fun items => ⟨ReadsAs.eq_scan, ?_⟩, ⟨fun h => ?_, ?_⟩, fun c => ⟨fun h => ?_, ?_⟩, ?_⟩
  · rintro rfl
    exact hscans.reads
  · rw [h] at hscans
    obtain ⟨c, hcause, -⟩ | ⟨-, quote, run, rest, hsplit, hlongest⟩ := hscans.fault_cases
    · cases hcause
    · obtain ⟨r, hr, hwins⟩ := Rule.exists_wins hlongest
      obtain rfl := Rule.eq_openText_of_pattern hr
      exact ⟨quote, run, rest, hsplit, hwins⟩
  · rintro ⟨quote, run, rest, rfl, hwins⟩
    exact (ReadsAs.unclosed hwins).eq_scan.symm
  · rw [h] at hscans
    obtain ⟨d, hcause, hhead, hnone⟩ | ⟨hcause, -⟩ := hscans.fault_cases
    · cases hcause
      exact ⟨hhead, Rule.longest?_eq_none_iff_rules.mp hnone⟩
    · cases hcause
  · rintro ⟨hhead, hnone⟩
    obtain ⟨rest, rfl⟩ := List.head?_eq_some_iff.mp hhead
    exact (ReadsAs.stuck hnone).eq_scan.symm
  · rintro rest rfl hopen
    obtain ⟨sign, behind, hsplit, hsign, hscan⟩ := scan_star rest (position.step '/')
    exact ⟨sign, behind, hsplit, hsign, by rw [scan_slash hopen, hscan]⟩

end TypedScript
