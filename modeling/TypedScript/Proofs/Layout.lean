import Mathlib.Data.List.Induction
import Mathlib.Logic.Function.Iterate
import TypedScript.Proofs.Lexemes
import TypedScript.Token.Scanner

/-!
# Where tokens stand

A source text is its tokens with gaps around them. `Scans` says step by step how the
list of tokens comes about: what is picked at each place is passed over, or becomes a
token, or ends the list. `LaidOut` says how tokens and gaps make up a text and where
each token stands in it, apart from how they are found. By induction on the steps every
scan lays out what it has read, and what is left is where the list ends
(`Scans.laidOut`). So the tokens of a source account for all of it, and so do those
before a fault for all that stands in front of the fault (`source_laidOut`).
-/

namespace TypedScript

/-! ### Positions -/

/-- The position behind a text: the line feeds in it are counted, and the characters
behind the last of them. -/
def Position.behind (text : List Char) : Position :=
  ⟨1 + text.count '\n', 1 + (text.reverse.takeWhile (· ≠ '\n')).length⟩

theorem Position.advance_start (text : List Char) : start.advance text = behind text := by
  induction text using List.reverseRecOn with
  | nil => rfl
  | append_singleton text c ih =>
    rw [advance_append, ih, advance_cons, advance_nil, step, behind, behind]
    by_cases hline : c = '\n'
    · subst hline
      simp [Nat.add_assoc]
    · simp [hline, Nat.add_comm]

theorem Position.behind_append (text run : List Char) :
    behind (text ++ run) = (behind text).advance run := by
  rw [← advance_start, ← advance_start, advance_append]

/-- Whether a position is on an earlier line than another, or further to the left. -/
def Position.IsBefore (p q : Position) : Prop :=
  p.line < q.line ∨ p.line = q.line ∧ p.column < q.column

namespace Position.IsBefore

variable {p q r : Position}

theorem ne (h : p.IsBefore q) : p ≠ q := by
  rintro rfl
  rcases h with h | ⟨-, h⟩ <;> exact Nat.lt_irrefl _ h

theorem trans (h : p.IsBefore q) (h' : q.IsBefore r) : p.IsBefore r := by
  unfold IsBefore at *
  omega

theorem of_or (h : p.IsBefore q) (h' : q = r ∨ q.IsBefore r) : p.IsBefore r :=
  h'.elim (fun heq => heq ▸ h) h.trans

theorem step (p : Position) (c : Char) : p.IsBefore (p.step c) := by
  unfold Position.step
  split
  · exact .inl (Nat.lt_succ_self _)
  · exact .inr ⟨rfl, Nat.lt_succ_self _⟩

/-- Behind a run stands what is further on, unless the run is empty. -/
theorem advance (p : Position) (run : List Char) :
    p = p.advance run ∨ p.IsBefore (p.advance run) := by
  induction run generalizing p with
  | nil => exact .inl rfl
  | cons c run ih => exact .inr ((step p c).of_or (ih (p.step c)))

theorem advance_of_ne_nil (p : Position) {run : List Char} (h : run ≠ []) :
    p.IsBefore (p.advance run) := by
  cases run with
  | nil => exact absurd rfl h
  | cons c run => exact (step p c).of_or (advance (p.step c) run)

end Position.IsBefore

/-! ### Steps of a scan -/

namespace Pattern

/-- The patterns whose runs are tokens. -/
def isToken : Pattern → Bool
  | .number | .closedText _ | .word | .symbol _ => true
  | _ => false

/-- The patterns whose runs are passed over. -/
def isGap : Pattern → Bool
  | .lineComment | .blockComment | .lineFeed | .blanks => true
  | _ => false

theorem isToken_or_isGap (p : Pattern) :
    p.isToken = true ∨ p.isGap = true ∨ ∃ quote, p = .openText quote := by
  cases p with
  | number | closedText | word | symbol => exact .inl rfl
  | lineComment | blockComment | lineFeed | blanks => exact .inr (.inl rfl)
  | openText quote => exact .inr (.inr ⟨quote, rfl⟩)

/-- What is picked for a text, as the run that is taken and the text behind it. -/
theorem exists_longest {s : List Char} {p : Pattern} {n : Nat} (h : longest? s = some (p, n)) :
    ∃ run rest, s = run ++ rest ∧ longest? (run ++ rest) = some (p, run.length) := by
  obtain ⟨-, hn, -⟩ := longest?_eq_some_iff.mp h
  refine ⟨s.take n, s.drop n, (List.take_append_drop n s).symm, ?_⟩
  rw [List.take_append_drop, List.length_take_of_le hn, h]

section Picked

variable {p : Pattern} {run rest : List Char}

theorem mem_all_of_longest (h : longest? (run ++ rest) = some (p, run.length)) : p ∈ all :=
  (longest?_eq_some_iff.mp h).1

theorem matches_of_longest (h : longest? (run ++ rest) = some (p, run.length)) :
    p.Matches run := by
  simpa using (longest?_eq_some_iff.mp h).2.2.1

/-- A line comment goes to the end of its line. -/
theorem lineComment_ends (h : longest? (run ++ rest) = some (.lineComment, run.length)) :
    ∀ c, rest.head? = some c → c = '\n' ∨ c = '\r' := by
  intro c hc
  by_contra hline
  obtain ⟨rest, rfl⟩ := List.head?_eq_some_iff.mp hc
  have hlonger : Matches .lineComment (run ++ [c]) := by
    cases matches_of_longest h with
    | @lineComment body hbody =>
      have hbody' : ∀ d ∈ body ++ [c], d ≠ '\n' ∧ d ≠ '\r' := by
        intro d hd
        rcases List.mem_append.mp hd with hd | hd
        · exact hbody d hd
        · rw [List.mem_singleton.mp hd]
          exact not_or.mp hline
      exact .lineComment hbody'
  have hlength := (longest?_eq_some_iff.mp h).2.2.2 _ (mem_all_of_longest h) _ hlonger
    ⟨rest, by simp⟩
  simp only [List.length_append, List.length_singleton] at hlength
  omega

end Picked

/-- A word is a truth value, another reserved word, or a name. -/
theorem wordKind_cases (word : String) :
    (∃ value, wordKind word = .boolean value) ∨ (∃ keyword, wordKind word = .keyword keyword) ∨
      wordKind word = .identifier word := by
  unfold wordKind
  split
  · exact .inl ⟨_, rfl⟩
  · split
    · exact .inl ⟨_, rfl⟩
    · split
      · exact .inr (.inl ⟨_, rfl⟩)
      · exact .inr (.inr rfl)

end Pattern

open Pattern

/-- How the tokens of a text come about. -/
inductive Scans : List Char → Position → List (Except ScanFault Token) → Prop where
  | done {position : Position} : Scans [] position [.ok ⟨.endOfInput, "", position⟩]
  | stuck {c : Char} {rest : List Char} {position : Position} :
      longest? (c :: rest) = none →
      Scans (c :: rest) position [.error ⟨.unexpectedCharacter c, position⟩]
  | unclosed {quote : Char} {run rest : List Char} {position : Position} :
      longest? (run ++ rest) = some (.openText quote, run.length) →
      Scans (run ++ rest) position [.error ⟨.unterminatedText, position⟩]
  | gap {p : Pattern} {run rest : List Char} {position : Position}
      {items : List (Except ScanFault Token)} : p.isGap = true →
      longest? (run ++ rest) = some (p, run.length) → Scans rest (position.advance run) items →
      Scans (run ++ rest) position items
  | token {p : Pattern} {run rest : List Char} {position : Position}
      {items : List (Except ScanFault Token)} : p.isToken = true →
      longest? (run ++ rest) = some (p, run.length) → Scans rest (position.advance run) items →
      Scans (run ++ rest) position (.ok ⟨p.kind run, String.ofList run, position⟩ :: items)

section Equations

variable {p : Pattern} {run rest : List Char} {position : Position}

theorem scan_of_none {c : Char} (h : longest? (c :: rest) = none) :
    scan (c :: rest) position = [.error ⟨.unexpectedCharacter c, position⟩] := by
  rw [scan.eq_def]
  dsimp only
  split
  · rfl
  · next hsome => simp [h] at hsome

theorem scan_append (h : longest? (run ++ rest) = some (p, run.length)) :
    scan (run ++ rest) position =
      match p.kind run with
      | .blank => scan rest (position.advance run)
      | .comment => scan rest (position.advance run)
      | .openText => [.error ⟨.unterminatedText, position⟩]
      | kind => .ok ⟨kind, String.ofList run, position⟩ :: scan rest (position.advance run) := by
  cases run with
  | nil => exact absurd rfl (matches_of_longest h).ne_nil
  | cons c run =>
    rw [List.cons_append] at h ⊢
    rw [scan.eq_def]
    dsimp only
    split
    · next hnone => simp [h] at hnone
    · next q n hsome =>
      obtain ⟨rfl, rfl⟩ : p = q ∧ run.length + 1 = n := by simpa [h] using hsome
      generalize htake : (c :: (run ++ rest)).take (run.length + 1) = lexeme
      generalize hdrop : (c :: (run ++ rest)).drop (run.length + 1) = behind
      obtain rfl : c :: run = lexeme := by simpa using htake
      obtain rfl : rest = behind := by simpa using hdrop
      rfl

theorem scan_of_gap (hp : p.isGap = true) (h : longest? (run ++ rest) = some (p, run.length)) :
    scan (run ++ rest) position = scan rest (position.advance run) := by
  rw [scan_append h]
  cases p <;> first | rfl | cases hp

theorem scan_of_openText {quote : Char}
    (h : longest? (run ++ rest) = some (.openText quote, run.length)) :
    scan (run ++ rest) position = [.error ⟨.unterminatedText, position⟩] :=
  scan_append h

theorem scan_of_token (hp : p.isToken = true)
    (h : longest? (run ++ rest) = some (p, run.length)) :
    scan (run ++ rest) position =
      .ok ⟨p.kind run, String.ofList run, position⟩ :: scan rest (position.advance run) := by
  rw [scan_append h]
  cases p with
  | number | closedText | symbol => rfl
  | word =>
    obtain ⟨value, hkind⟩ | ⟨keyword, hkind⟩ | hkind := wordKind_cases (String.ofList run) <;>
      simp only [kind, hkind]
  | openText | lineComment | blockComment | lineFeed | blanks => cases hp

end Equations

/-- Every text is scanned in these steps. -/
theorem scans (s : List Char) (position : Position) : Scans s position (scan s position) := by
  induction hlength : s.length using Nat.strong_induction_on generalizing s position with
  | _ length ih =>
    cases s with
    | nil =>
      rw [scan.eq_def]
      exact .done
    | cons c cs =>
      cases hpick : longest? (c :: cs) with
      | none =>
        rw [scan_of_none hpick]
        exact .stuck hpick
      | some found =>
        obtain ⟨run, rest, hsplit, hlongest⟩ := exists_longest hpick
        have hrun := (matches_of_longest hlongest).ne_nil
        rw [hsplit] at hlength ⊢
        -- no pattern matches the empty run, so what is left is shorter
        have hshorter : rest.length < length := by
          have := List.length_pos_iff.mpr hrun
          rw [← hlength, List.length_append]
          omega
        have htail := ih rest.length hshorter rest (position.advance run) rfl
        obtain htoken | hgap | ⟨quote, hquote⟩ := isToken_or_isGap found.1
        · rw [scan_of_token htoken hlongest]
          exact .token htoken hlongest htail
        · rw [scan_of_gap hgap hlongest]
          exact .gap hgap hlongest htail
        · rw [hquote] at hlongest
          rw [scan_of_openText hlongest]
          exact .unclosed hlongest

/-- A scan gives at most one item for each character, and one more. -/
theorem Scans.length_le {s : List Char} {position : Position}
    {items : List (Except ScanFault Token)} (h : Scans s position items) :
    items.length ≤ s.length + 1 := by
  induction h with
  | done | stuck | unclosed => simp
  | gap hp hlongest htail ih =>
    rw [List.length_append]
    omega
  | token hp hlongest htail ih =>
    have := List.length_pos_iff.mpr (matches_of_longest hlongest).ne_nil
    rw [List.length_append, List.length_cons]
    omega

/-! ### Layouts -/

/-- A token made of a run that a pattern matches. -/
def Token.IsRead (t : Token) : Prop :=
  ∃ p ∈ all, p.isToken = true ∧ p.Matches t.lexeme.toList ∧ t.kind = p.kind t.lexeme.toList

/-- Blanks, line feeds and comments one after another, in front of `rest`. A line
comment goes to the end of its line. -/
inductive IsGap (rest : List Char) : List Char → Prop where
  | nil : IsGap rest []
  | run {p : Pattern} {run gap : List Char} : p.isGap = true → p.Matches run →
      (p = .lineComment → ∀ c, (gap ++ rest).head? = some c → c = '\n' ∨ c = '\r') →
      IsGap rest gap → IsGap rest (run ++ gap)

/-- The text between `before` and `rest` is made of gaps and of the tokens `ts`, each
of which knows where it stands. -/
inductive LaidOut (rest : List Char) : List Char → List Token → List Char → Prop where
  | gap {before gap : List Char} : IsGap rest gap → LaidOut rest before [] gap
  | token {before gap text : List Char} {t : Token} {ts : List Token} :
      IsGap (t.lexeme.toList ++ text ++ rest) gap → t.IsRead →
      t.position = .behind (before ++ gap) →
      LaidOut rest (before ++ gap ++ t.lexeme.toList) ts text →
      LaidOut rest before (t :: ts) (gap ++ (t.lexeme.toList ++ text))

/-- How the list of tokens ends in front of a text. -/
inductive EndsAt : List Char → Position → Except ScanFault Token → Prop where
  | endOfInput {position : Position} : EndsAt [] position (.ok ⟨.endOfInput, "", position⟩)
  | unexpectedCharacter {c : Char} {rest : List Char} {position : Position} :
      (∀ p ∈ all, ∀ run, p.Matches run → ¬ run <+: c :: rest) →
      EndsAt (c :: rest) position (.error ⟨.unexpectedCharacter c, position⟩)
  | unterminatedText {quote : Char} {rest : List Char} {position : Position} :
      quote = '"' ∨ quote = '\'' →
      (∀ run, Matches (.closedText quote) run → ¬ run <+: quote :: rest) →
      EndsAt (quote :: rest) position (.error ⟨.unterminatedText, position⟩)

/-- A run that is passed over makes the gap in front of a layout longer. -/
theorem LaidOut.passOver {p : Pattern} {run text before rest : List Char} {ts : List Token}
    (h : LaidOut rest (before ++ run) ts text) (hp : p.isGap = true) (hrun : p.Matches run)
    (hends : p = .lineComment →
      ∀ c, (text ++ rest).head? = some c → c = '\n' ∨ c = '\r') :
    LaidOut rest before ts (run ++ text) := by
  generalize hbehind : before ++ run = behind at h
  cases h with
  | gap hgap => exact .gap (.run hp hrun hends hgap)
  | @token _ gap text t ts hgap hread hposition htail =>
    subst hbehind
    rw [← List.append_assoc run]
    refine .token (.run hp hrun ?_ hgap) hread ?_ ?_
    · simpa only [List.append_assoc] using hends
    · rw [hposition, List.append_assoc]
    · simpa only [List.append_assoc] using htail

/-- A text literal that is open is not closed further on in its text. -/
theorem endsAt_of_openText {quote : Char} {run rest : List Char} {position : Position}
    (h : longest? (run ++ rest) = some (.openText quote, run.length)) :
    EndsAt (run ++ rest) position (.error ⟨.unterminatedText, position⟩) := by
  have hopen := mem_all_of_longest h
  have hclosed : .closedText quote ∈ all := by
    rcases quote_of_mem_all (.inr hopen) with rfl | rfl <;> simp [all]
  have hmax := (longest?_eq_some_iff.mp h).2.2.2 _ hclosed
  cases matches_of_longest h with
  | @openText _ body hbody =>
    refine .unterminatedText (quote_of_mem_all (.inr hopen)) fun run' hrun' hfront => ?_
    -- the closed literal would be part of the open one, whose body holds no closing quote
    have hshorter := List.prefix_of_prefix_length_le hfront
      (List.prefix_append (quote :: body) rest) (hmax run' hrun' hfront)
    cases hrun' with
    | closedText hbody' =>
      obtain ⟨behind, hbehind⟩ := (List.cons_prefix_cons.mp hshorter).2
      rw [← hbehind, List.append_assoc] at hbody
      exact hbody'.not_closed (ne_escape_of_quote (.inl hclosed)) behind hbody

/-- What has been read is laid out, and what is left is where the list ends. -/
theorem Scans.laidOut {s before : List Char} {position : Position}
    {items : List (Except ScanFault Token)} (h : Scans s position items)
    (hposition : position = .behind before) :
    ∃ ts last text rest, items = ts.map .ok ++ [last] ∧ s = text ++ rest ∧
      LaidOut rest before ts text ∧ EndsAt rest (.behind (before ++ text)) last := by
  induction h generalizing before with
  | done =>
    subst hposition
    refine ⟨[], _, [], [], rfl, rfl, .gap .nil, ?_⟩
    rw [List.append_nil]
    exact .endOfInput
  | @stuck c rest position hnone =>
    subst hposition
    refine ⟨[], _, [], c :: rest, rfl, rfl, .gap .nil, ?_⟩
    rw [List.append_nil]
    exact .unexpectedCharacter (longest?_eq_none_iff.mp hnone)
  | @unclosed quote run rest position hlongest =>
    subst hposition
    refine ⟨[], _, [], run ++ rest, rfl, rfl, .gap .nil, ?_⟩
    rw [List.append_nil]
    exact endsAt_of_openText hlongest
  | @gap p run rest position items hp hlongest htail ih =>
    subst hposition
    obtain ⟨ts, last, text, rest, rfl, rfl, hlaid, hend⟩ :=
      ih (Position.behind_append before run).symm
    refine ⟨ts, last, run ++ text, rest, rfl, (List.append_assoc ..).symm, ?_, ?_⟩
    · -- a comment on a line goes up to the end of the line, being the longest run
      refine hlaid.passOver hp (matches_of_longest hlongest) fun hline => ?_
      subst hline
      exact lineComment_ends hlongest
    · rwa [List.append_assoc] at hend
  | @token p run rest position items hp hlongest htail ih =>
    subst hposition
    obtain ⟨ts, last, text, rest, rfl, rfl, hlaid, hend⟩ :=
      ih (Position.behind_append before run).symm
    refine ⟨_ :: ts, last, run ++ text, rest, rfl, (List.append_assoc ..).symm, ?_, ?_⟩
    · -- a lexeme starts here with no gap before it, as gaps come in runs of their own
      have hlexeme : run ++ text = [] ++ ((String.ofList run).toList ++ text) := by
        rw [String.toList_ofList, List.nil_append]
      rw [hlexeme]
      refine .token .nil ⟨p, mem_all_of_longest hlongest, hp, ?_, ?_⟩ ?_ ?_
      · simpa only [String.toList_ofList] using matches_of_longest hlongest
      · simp only [String.toList_ofList]
      · rw [List.append_nil]
      · simpa only [String.toList_ofList, List.append_nil] using hlaid
    · rwa [List.append_assoc] at hend

theorem Pattern.kind_of_isToken {p : Pattern} (hp : p.isToken = true) (run : List Char) :
    (p.kind run).isEnd = false := by
  cases p with
  | number | closedText | symbol => rfl
  | word =>
    obtain ⟨value, hkind⟩ | ⟨keyword, hkind⟩ | hkind := wordKind_cases (String.ofList run) <;>
      simp only [kind, hkind, Token.Kind.isEnd]
  | openText | lineComment | blockComment | lineFeed | blanks => cases hp

/-- No text is read as an end marker. -/
theorem Token.IsRead.not_isEnd {t : Token} (h : t.IsRead) : t.kind.isEnd = false := by
  obtain ⟨p, -, hp, -, hkind⟩ := h
  rw [hkind]
  exact kind_of_isToken hp _

theorem LaidOut.isRead {rest before text : List Char} {ts : List Token}
    (h : LaidOut rest before ts text) : ∀ t ∈ ts, t.IsRead := by
  induction h with
  | gap => simp
  | token _ hread _ _ ih => exact List.forall_mem_cons.mpr ⟨hread, ih⟩

/-! ### Sources -/

theorem mapM_ok_append (ts : List Token) (last : Except ScanFault Token) :
    (ts.map Except.ok ++ [last]).mapM id = last.map fun t => ts ++ [t] := by
  induction ts with
  | nil => cases last <;> rfl
  | cons t ts ih =>
    rw [List.map_cons, List.cons_append, List.mapM_cons, ih]
    cases last <;> rfl

namespace Scanner

/-- The items that a scanner of a source gives when it is asked again and again. -/
def item (source : String) (n : Nat) : Option (Except ScanFault Token) :=
  ((fun s => s.next.2)^[n] (ofSource source)).next.1

theorem iterate_next (s : Scanner) (n : Nat) :
    ((fun s => s.next.2)^[n] s).pending = s.pending.drop n := by
  induction n generalizing s with
  | zero => rfl
  | succ n ih =>
    rw [Function.iterate_succ_apply, ih, next, List.drop_tail]

theorem item_eq (source : String) (n : Nat) :
    item source n = (scan source.toList .start)[n]? := by
  rw [item, next, iterate_next, List.head?_drop, ofSource]

end Scanner

/-- A source is laid out as its tokens with gaps around them, and the end marker stands
behind it. If it cannot be split, the tokens in front of the fault are laid out in what
stands in front of the first character that is not taken, and the fault is blamed
there. A scanner gives these items and then nothing more, and they are at most one more
than there are characters. -/
theorem source_laidOut (source : String) :
    (match Token.ofSource? source with
      | .ok tokens =>
        ∃ ts, tokens = ts ++ [⟨.endOfInput, "", .behind source.toList⟩] ∧
          (∀ t ∈ ts, t.kind.isEnd = false) ∧ LaidOut [] [] ts source.toList
      | .error fault =>
        ∃ ts text rest, scan source.toList .start = ts.map .ok ++ [.error fault] ∧
          source.toList = text ++ rest ∧ rest ≠ [] ∧ LaidOut rest [] ts text ∧
          fault.position = .behind text ∧ EndsAt rest fault.position (.error fault)) ∧
    (∀ n, Scanner.item source n = (scan source.toList .start)[n]?) ∧
    ∃ count ≤ source.length + 1, ∀ n, Scanner.item source n = none ↔ count ≤ n := by
  have hscans := scans source.toList .start
  refine ⟨?_, Scanner.item_eq source, (scan source.toList .start).length, ?_, ?_⟩
  · have hstart : Position.start = .behind [] := rfl
    obtain ⟨ts, last, text, rest, hitems, hsource, hlaid, hend⟩ := hscans.laidOut hstart
    rw [Token.ofSource?, hitems, mapM_ok_append]
    rw [List.nil_append] at hend
    cases hend with
    | endOfInput =>
      rw [List.append_nil] at hsource
      rw [hsource]
      exact ⟨ts, rfl, fun t ht => (hlaid.isRead t ht).not_isEnd, hlaid⟩
    | unexpectedCharacter hnone =>
      exact ⟨ts, text, _, rfl, hsource, List.cons_ne_nil _ _, hlaid, rfl,
        .unexpectedCharacter hnone⟩
    | unterminatedText hquote hopen =>
      exact ⟨ts, text, _, rfl, hsource, List.cons_ne_nil _ _, hlaid, rfl,
        .unterminatedText hquote hopen⟩
  · rw [← String.length_toList]
    exact hscans.length_le
  · intro n
    rw [Scanner.item_eq, List.getElem?_eq_none_iff]

end TypedScript
