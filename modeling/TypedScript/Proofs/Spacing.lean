import TypedScript.Proofs.Layout
import TypedScript.Proofs.Moving

/-!
# Tokens apart from their layout

No match reaches from a token over the blank behind it (`Matches.not_over_blank`), so
the lexeme of a token, with a blank or nothing behind it, is scanned as that token
again. Hence the lexemes of a row of tokens with a blank between any two are scanned as
these tokens, whatever stood between them in the source they come from
(`scan_spaced`).
-/

namespace TypedScript

open Pattern

/-- The lexemes of a row of tokens, with a blank between any two. -/
def spaced (ts : List Token) : String :=
  " ".intercalate (ts.map (·.lexeme))

/-- What a token says, apart from where it stands. -/
def Token.content (t : Token) : Token.Kind × String :=
  (t.kind, t.lexeme)

/-! ### Matches in front of a blank -/

namespace Pattern

variable {p q : Pattern} {run rest : List Char}

theorem blank_not_mem_number (h : Matches .number run) : ' ' ∉ run := by
  intro hblank
  cases h with
  | whole hdigits => exact absurd (hdigits.all ' ' hblank) (by decide)
  | decimal hdigits hfraction =>
    rcases List.mem_append.mp hblank with hblank | hblank
    · exact absurd (hdigits.all ' ' hblank) (by decide)
    · rcases List.mem_cons.mp hblank with hblank | hblank
      · exact absurd hblank (by decide)
      · exact absurd (hfraction.all ' ' hblank) (by decide)

theorem blank_not_mem_word (h : Matches .word run) : ' ' ∉ run := by
  intro hblank
  cases h with
  | word hfirst hrest =>
    rcases List.mem_cons.mp hblank with rfl | hblank
    · exact absurd hfirst (by decide)
    · exact absurd (hrest ' ' hblank) (by decide)

theorem blank_not_mem_spelling (sign : Symbol) : ' ' ∉ sign.spelling.toList := by
  cases sign <;> decide

theorem spelling_blank_ne_comment (sign : Symbol) (rest body : List Char) :
    sign.spelling.toList ++ ' ' :: rest ≠ '/' :: '/' :: body ∧
      sign.spelling.toList ++ ' ' :: rest ≠ '/' :: '*' :: body := by
  cases sign <;> simp [Symbol.spelling]

/-- No run goes on behind a token and the blank that follows it. -/
theorem Matches.not_over_blank (h : p.Matches run) (hp : p ∈ all) (htoken : p.isToken = true)
    (hq : q ∈ all) : ¬ q.Matches (run ++ ' ' :: rest) := by
  intro hmatches
  have hopening := (h.opening_unique hmatches hp hq).symm
  have hblank : ' ' ∈ run ++ ' ' :: rest := by simp
  cases h with
  | whole | decimal =>
    rw [eq_number_of_opening hopening] at hmatches
    exact blank_not_mem_number hmatches hblank
  | word =>
    rw [eq_word_of_opening hopening] at hmatches
    exact blank_not_mem_word hmatches hblank
  | @closedText quote body hbody =>
    -- a longer literal would hold the quote that closes the token
    have hquote := ne_escape_of_quote (.inl hp)
    generalize hlonger : quote :: (body ++ [quote]) ++ ' ' :: rest = longer at hmatches
    obtain ⟨quote', rfl | rfl⟩ := text_of_opening hopening
    · cases hmatches with
      | @closedText _ body' hbody' =>
        simp only [List.cons_append, List.append_assoc, List.nil_append, List.cons.injEq] at hlonger
        obtain ⟨rfl, hlonger⟩ := hlonger
        have hlength := congrArg (Quoted.bodyLength quote) hlonger
        rw [hbody.bodyLength_closed hquote, hbody'.bodyLength_closed hquote] at hlength
        have := congrArg List.length hlonger
        simp only [List.length_append, List.length_cons, List.length_nil] at this
        omega
    · cases hmatches with
      | openText hopen =>
        simp only [List.cons_append, List.append_assoc, List.cons.injEq] at hlonger
        obtain ⟨rfl, rfl⟩ := hlonger
        exact hbody.not_closed hquote _ hopen
  | symbol sign =>
    generalize hlonger : sign.spelling.toList ++ ' ' :: rest = longer at hmatches
    obtain rfl | rfl | ⟨sign', rfl⟩ := sign_of_opening hopening
    · cases hmatches
      exact (spelling_blank_ne_comment sign rest _).1 hlonger
    · cases hmatches
      exact (spelling_blank_ne_comment sign rest _).2 hlonger
    · cases hmatches
      exact blank_not_mem_spelling sign' (hlonger ▸ hblank)
  | openText | lineComment | blockComment | lineFeed | blanks => cases htoken

/-- The lexeme of a token is taken as a whole if a blank or nothing stands behind it. -/
theorem Matches.longest?_append (h : p.Matches run) (hp : p ∈ all) (htoken : p.isToken = true)
    (hrest : ∀ c, rest.head? = some c → c = ' ') :
    longest? (run ++ rest) = some (p, run.length) := by
  refine longest?_eq_some_iff.mpr ⟨hp, by simp, by rwa [List.take_left], ?_⟩
  intro q hq run' hrun' hfront
  by_contra hlonger
  -- a longer run would go over the blank
  obtain ⟨more, rfl⟩ := List.prefix_of_prefix_length_le (List.prefix_append run rest) hfront
    (Nat.le_of_lt (Nat.lt_of_not_le hlonger))
  obtain ⟨behind, hbehind⟩ := hfront
  cases more with
  | nil => simp at hlonger
  | cons c more =>
    have hrest' : rest = c :: (more ++ behind) := by simpa using hbehind.symm
    obtain rfl := hrest c (by rw [hrest']; rfl)
    exact h.not_over_blank hp htoken hq hrun'

/-- A single blank is taken alone. -/
theorem longest?_blank (hrest : ∀ c, rest.head? = some c → isBlank c = false) :
    longest? ([' '] ++ rest) = some (.blanks, [' '].length) := by
  have hblank : Matches .blanks [' '] :=
    .blanks ⟨List.cons_ne_nil _ _, List.forall_mem_singleton.mpr rfl⟩
  refine longest?_eq_some_iff.mpr ⟨by simp [all], by simp, hblank, ?_⟩
  intro q hq run' hrun' hfront
  obtain ⟨behind, hbehind⟩ := hfront
  cases run' with
  | nil => exact absurd rfl hrun'.ne_nil
  | cons c run' =>
    obtain rfl := (List.cons.inj hbehind).1
    cases run' with
    | nil => exact Nat.le_refl _
    | cons d run' =>
      have hrest' : d :: (run' ++ behind) = rest := (List.cons.inj hbehind).2
      have hopening := hrun'.opening_eq hq
      rw [eq_blanks_of_opening hopening] at hrun'
      cases hrun' with
      | blanks hblanks =>
        have hd := hblanks.all d (by simp)
        rw [hrest d (by rw [← hrest']; rfl)] at hd
        cases hd

end Pattern

/-! ### Scanning spaced lexemes -/

/-- The lexeme of a token does not start with a blank. -/
theorem Token.IsRead.head_not_blank {t : Token} (h : t.IsRead) (rest : List Char) :
    ∀ c, (t.lexeme.toList ++ rest).head? = some c → isBlank c = false := by
  obtain ⟨p, hp, htoken, hmatches, -⟩ := h
  intro c hc
  cases hlexeme : t.lexeme.toList with
  | nil => exact absurd hlexeme hmatches.ne_nil
  | cons d lexeme =>
    rw [hlexeme] at hmatches hc
    obtain rfl : d = c := by simpa using hc
    have hopening := hmatches.opening_eq hp
    by_contra hblank
    rw [opening_of_blank ((Bool.not_eq_false _).mp hblank)] at hopening
    rw [eq_blanks_of_opening hopening] at htoken
    cases htoken

theorem scan_token {t : Token} (h : t.IsRead) {rest : List Char}
    (hrest : ∀ c, rest.head? = some c → c = ' ') (position : Position) :
    scan (t.lexeme.toList ++ rest) position =
      .ok { t with position } :: scan rest (position.advance t.lexeme.toList) := by
  obtain ⟨p, hp, htoken, hmatches, hkind⟩ := h
  rw [scan_of_token htoken (hmatches.longest?_append hp htoken hrest), String.ofList_toList,
    ← hkind]

theorem scan_blank {rest : List Char} (hrest : ∀ c, rest.head? = some c → isBlank c = false)
    (position : Position) : scan (' ' :: rest) position = scan rest (position.advance [' ']) :=
  scan_of_gap rfl (longest?_blank hrest)

/-- The lexemes of tokens with a blank between any two, and `tail` behind them. -/
def lexemeRow (ts : List Token) (tail : List Char) : List Char :=
  [' '].intercalate (ts.map (·.lexeme.toList)) ++ tail

@[simp] theorem lexemeRow_nil (tail : List Char) : lexemeRow [] tail = tail :=
  rfl

@[simp] theorem lexemeRow_singleton (t : Token) (tail : List Char) :
    lexemeRow [t] tail = t.lexeme.toList ++ tail := by
  simp [lexemeRow]

@[simp] theorem lexemeRow_cons_cons (t u : Token) (ts : List Token) (tail : List Char) :
    lexemeRow (t :: u :: ts) tail = t.lexeme.toList ++ ' ' :: lexemeRow (u :: ts) tail := by
  simp [lexemeRow, List.intercalate_cons_cons]

theorem lexemeRow_head {t : Token} (h : t.IsRead) (ts : List Token) (tail : List Char) :
    ∀ c, (lexemeRow (t :: ts) tail).head? = some c → isBlank c = false := by
  cases ts with
  | nil =>
    rw [lexemeRow_singleton]
    exact h.head_not_blank tail
  | cons u ts =>
    rw [lexemeRow_cons_cons]
    exact h.head_not_blank _

/-- Lexemes with a blank between any two, and perhaps one behind the last, are scanned
as the tokens that they were read as. -/
theorem scan_lexemeRow {ts : List Token} (hts : ∀ t ∈ ts, t.IsRead) {tail : List Char}
    (htail : tail = [] ∨ tail = [' ']) (position : Position) :
    ∃ (again : List Token) (last : Position),
      scan (lexemeRow ts tail) position = again.map .ok ++ [.ok ⟨.endOfInput, "", last⟩] ∧
        again.map Token.content = ts.map Token.content := by
  -- by induction on the tokens, each read up to the blank behind it
  have hblank : ∀ c, tail.head? = some c → c = ' ' := by
    obtain rfl | rfl := htail <;> simp
  have hdone : ∀ position, scan [] position = [.ok ⟨.endOfInput, "", position⟩] :=
    fun position => scan.eq_def _ _
  induction ts generalizing position with
  | nil =>
    obtain rfl | rfl := htail
    · exact ⟨[], position, hdone position, rfl⟩
    · exact ⟨[], _, (scan_blank (by simp) position).trans (hdone _), rfl⟩
  | cons t ts ih =>
    obtain ⟨ht, hts⟩ := List.forall_mem_cons.mp hts
    cases ts with
    | nil =>
      obtain ⟨again, last, hagain, hcontent⟩ := ih hts (position.advance t.lexeme.toList)
      refine ⟨{ t with position } :: again, last, ?_, congrArg (t.content :: ·) hcontent⟩
      rw [lexemeRow_singleton, scan_token ht hblank, ← lexemeRow_nil tail, hagain]
      rfl
    | cons u us =>
      obtain ⟨hu, -⟩ := List.forall_mem_cons.mp hts
      obtain ⟨again, last, hagain, hcontent⟩ :=
        ih hts ((position.advance t.lexeme.toList).advance [' '])
      refine ⟨{ t with position } :: again, last, ?_, congrArg (t.content :: ·) hcontent⟩
      rw [lexemeRow_cons_cons, scan_token ht (by simp), scan_blank (lexemeRow_head hu us tail),
        hagain]
      rfl

/-! ### Spaced sources -/

theorem toList_spaced (ts : List Token) : (spaced ts).toList = lexemeRow ts [] := by
  rw [spaced, String.toList_intercalate, lexemeRow, List.append_nil, List.map_map]
  rfl

/-- An end marker adds a blank, unless it stands alone. -/
theorem toList_spaced_append (ts : List Token) {last : Token} (hlast : last.lexeme = "") :
    ∃ tail, (tail = [] ∨ tail = [' ']) ∧ (spaced (ts ++ [last])).toList = lexemeRow ts tail := by
  rw [toList_spaced]
  induction ts with
  | nil => exact ⟨[], .inl rfl, by simp [hlast]⟩
  | cons t ts ih =>
    cases ts with
    | nil => exact ⟨[' '], .inr rfl, by simp [hlast]⟩
    | cons u ts =>
      obtain ⟨tail, htail, hrow⟩ := ih
      refine ⟨tail, htail, ?_⟩
      rw [List.cons_append, List.cons_append, lexemeRow_cons_cons, lexemeRow_cons_cons,
        ← List.cons_append, hrow]

/-- The tokens of a source are read off it, with an end marker behind them. -/
theorem exists_read_of_ofSource? {source : String} {tokens : List Token}
    (h : Token.ofSource? source = .ok tokens) :
    ∃ ts position, tokens = ts ++ [⟨.endOfInput, "", position⟩] ∧ ∀ t ∈ ts, t.IsRead := by
  have hstart : Position.start = .behind [] := rfl
  obtain ⟨ts, last, text, rest, hitems, -, hlaid, hend⟩ :=
    (scans source.toList .start).laidOut hstart
  rw [Token.ofSource?, hitems, mapM_ok_append] at h
  cases hend with
  | endOfInput =>
    cases h
    exact ⟨ts, _, rfl, hlaid.isRead⟩
  | unexpectedCharacter | unterminatedText => cases h

/-- A source made of spaced lexemes is read as the tokens that the lexemes come from. -/
theorem ofSource?_of_lexemeRow {source : String} {ts : List Token} (hts : ∀ t ∈ ts, t.IsRead)
    {tail : List Char} (htail : tail = [] ∨ tail = [' '])
    (hsource : source.toList = lexemeRow ts tail) (position : Position) :
    ∃ again, Token.ofSource? source = .ok again ∧
      again.map Token.content =
        (ts ++ [(⟨.endOfInput, "", position⟩ : Token)]).map Token.content := by
  obtain ⟨again, last, hscan, hcontent⟩ := scan_lexemeRow hts htail .start
  refine ⟨again ++ [⟨.endOfInput, "", last⟩], ?_, ?_⟩
  · rw [Token.ofSource?, hsource, hscan, mapM_ok_append]
    rfl
  · rw [List.map_append, List.map_append, hcontent]
    rfl

/-- What tokens make up depends on nothing but what they say, apart from positions. -/
theorem unplaced_ofTokens?_congr {ts us : List Token}
    (h : ts.map Token.content = us.map Token.content) :
    unplaced (Program.ofTokens? ts) = unplaced (Program.ofTokens? us) := by
  have hmoved : ∀ ts : List Token, ts.map (Token.moved fun _ => .start) =
      (ts.map Token.content).map fun content => ⟨content.1, content.2, .start⟩ := by
    intro ts
    rw [List.map_map]
    rfl
  rw [unplaced_ofTokens?, unplaced_ofTokens?, hmoved, hmoved, h]

/-- The layout of a source does not matter. Its lexemes with single blanks between
them, with the empty one of the end marker or without it, are read as tokens of the
same kinds and lexemes and make up the same program or the same fault, apart from
positions. So the same holds of any two sources with the same lexemes. -/
theorem ofSource?_spaced {source : String} {tokens : List Token}
    (h : Token.ofSource? source = .ok tokens) :
    (∀ row, row = tokens ∨ row = tokens.dropLast →
      ∃ again, Token.ofSource? (spaced row) = .ok again ∧
        again.map Token.content = tokens.map Token.content ∧
        unplaced (Program.ofTokens? again) = unplaced (Program.ofTokens? tokens)) ∧
    ∀ source' tokens', Token.ofSource? source' = .ok tokens' →
      tokens'.map (·.lexeme) = tokens.map (·.lexeme) →
      tokens'.map Token.content = tokens.map Token.content ∧
        unplaced (Program.ofTokens? tokens') = unplaced (Program.ofTokens? tokens) := by
  have hspaced : ∀ {source tokens}, Token.ofSource? source = .ok tokens →
      ∀ row, row = tokens ∨ row = tokens.dropLast →
        ∃ again, Token.ofSource? (spaced row) = .ok again ∧
          again.map Token.content = tokens.map Token.content := by
    intro source tokens h row hrow
    obtain ⟨ts, position, rfl, hts⟩ := exists_read_of_ofSource? h
    rw [List.dropLast_concat] at hrow
    obtain rfl | rfl := hrow
    · have hlast : (⟨.endOfInput, "", position⟩ : Token).lexeme = "" := rfl
      obtain ⟨tail, htail, hsource⟩ := toList_spaced_append ts hlast
      exact ofSource?_of_lexemeRow hts htail hsource position
    · exact ofSource?_of_lexemeRow hts (.inl rfl) (toList_spaced row) position
  refine ⟨fun row hrow => ?_, fun source' tokens' h' hlexemes => ?_⟩
  · obtain ⟨again, hagain, hcontent⟩ := hspaced h row hrow
    exact ⟨again, hagain, hcontent, unplaced_ofTokens?_congr hcontent⟩
  · -- both sources are read like the one text that their lexemes make up
    obtain ⟨again, hagain, hcontent⟩ := hspaced h tokens (.inl rfl)
    obtain ⟨again', hagain', hcontent'⟩ := hspaced h' tokens' (.inl rfl)
    rw [spaced, hlexemes, ← spaced, hagain] at hagain'
    cases hagain'
    have hsame := hcontent'.symm.trans hcontent
    exact ⟨hsame, unplaced_ofTokens?_congr hsame⟩

/-- Two names on two lines are read like the same two names with a blank between
them. -/
theorem ofSource?_spaced_of_lines :
    let name (text : String) (position : Position) : Token := ⟨.identifier text, text, position⟩
    let lines := [name "a" ⟨1, 1⟩, name "b" ⟨2, 1⟩, ⟨.endOfInput, "", ⟨2, 2⟩⟩]
    let line := [name "a" ⟨1, 1⟩, name "b" ⟨1, 3⟩, ⟨.endOfInput, "", ⟨1, 4⟩⟩]
    Token.ofSource? "a\nb" = .ok lines ∧ Token.ofSource? "a b" = .ok line ∧
      (∃ again, Token.ofSource? (spaced lines) = .ok again ∧
        again.map Token.content = lines.map Token.content ∧
        unplaced (Program.ofTokens? again) = unplaced (Program.ofTokens? lines)) ∧
      line.map Token.content = lines.map Token.content ∧
      unplaced (Program.ofTokens? line) = unplaced (Program.ofTokens? lines) := by
  intro name lines line
  have hb : ∀ position, scan ['b'] position =
      [.ok (name "b" position), .ok ⟨.endOfInput, "", position.advance ['b']⟩] := by
    intro position
    have hlongest : longest? (['b'] ++ []) = some (.word, 1) := rfl
    refine (scan_of_token rfl hlongest).trans (congrArg (_ :: ·) ?_)
    exact scan.eq_def _ _
  have ha : ∀ gap, longest? (['a'] ++ [gap, 'b']) = some (.word, 1) → ∀ items,
      scan [gap, 'b'] ⟨1, 2⟩ = items →
        scan ['a', gap, 'b'] .start = .ok (name "a" ⟨1, 1⟩) :: items := by
    intro gap hlongest items hitems
    exact (scan_of_token rfl hlongest).trans (congrArg (_ :: ·) hitems)
  have hlines : Token.ofSource? "a\nb" = .ok lines := by
    have hgap : longest? (['\n'] ++ ['b']) = some (.lineFeed, 1) := rfl
    have hscan := ha '\n' rfl _ ((scan_of_gap rfl hgap).trans (hb _))
    exact congrArg (List.mapM id) hscan
  have hline : Token.ofSource? "a b" = .ok line := by
    have hgap : longest? ([' '] ++ ['b']) = some (.blanks, 1) := rfl
    have hscan := ha ' ' rfl _ ((scan_of_gap rfl hgap).trans (hb _))
    exact congrArg (List.mapM id) hscan
  obtain ⟨hspaced, hsame⟩ := ofSource?_spaced hlines
  exact ⟨hlines, hline, hspaced lines (.inl rfl), hsame "a b" line hline rfl⟩

end TypedScript
