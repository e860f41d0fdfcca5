import TypedScript.Proofs.Layout

/-!
# Texts and their literals

A text becomes a literal when a backslash is put in front of each backslash and each
quote in it, its line feeds are written as `\n`, and the quote is put around the whole
(`Quoted.literal`). `Quoted.Spells` says what the body of a literal stands for, escape by
escape and apart from how it is decoded. A body that is written spells its text, and a
body spells no other text than the one it decodes to (`Quoted.spells_iff`).

How far a literal goes is looked for apart from this. As what is written is a body, its
literal is matched to the end, and is read as one token (`ofSource?_literal`). In the
other direction a token with a text is the run of a closed literal, so its body spells
the text (`text_literals_exact`).
-/

namespace TypedScript

namespace Quoted

/-- A character as the body of a literal writes it. -/
def escape (quote c : Char) : List Char :=
  if c = '\\' ∨ c = quote then ['\\', c] else if c = '\n' then ['\\', 'n'] else [c]

/-- A text as the body of a literal writes it. -/
def encode (quote : Char) (text : List Char) : List Char :=
  text.flatMap (escape quote)

/-- A text as a literal. -/
def literal (quote : Char) (text : String) : String :=
  String.ofList (quote :: (encode quote text.toList ++ [quote]))

/-- The text that the body of a literal stands for. -/
inductive Spells (quote : Char) : List Char → List Char → Prop where
  | nil : Spells quote [] []
  | plain {c : Char} {body text : List Char} : c ≠ quote → c ≠ '\\' → c ≠ '\n' →
      Spells quote body text → Spells quote (c :: body) (c :: text)
  | lineFeed {body text : List Char} : Spells quote body text →
      Spells quote ('\\' :: 'n' :: body) ('\n' :: text)
  | tab {body text : List Char} : Spells quote body text →
      Spells quote ('\\' :: 't' :: body) ('\t' :: text)
  | carriageReturn {body text : List Char} : Spells quote body text →
      Spells quote ('\\' :: 'r' :: body) ('\r' :: text)
  | null {body text : List Char} : Spells quote body text →
      Spells quote ('\\' :: '0' :: body) ('\x00' :: text)
  | itself {c : Char} {body text : List Char} : c ∉ ['n', 't', 'r', '0', '\n'] →
      Spells quote body text → Spells quote ('\\' :: c :: body) (c :: text)

variable {quote : Char} {body text : List Char}

/-! ### Decoding -/

theorem decode_plain {c : Char} (hescape : c ≠ '\\') (rest : List Char) :
    decode (c :: rest) = c :: decode rest :=
  decode.eq_3 _ _ fun _ _ h _ => hescape h

theorem decode_escape (c : Char) (rest : List Char) :
    decode ('\\' :: c :: rest) = escaped c :: decode rest :=
  decode.eq_2 _ _

theorem escaped_itself {c : Char} (h : c ∉ ['n', 't', 'r', '0', '\n']) : escaped c = c := by
  simp only [List.mem_cons, not_or] at h
  exact escaped.eq_5 _ h.1 h.2.1 h.2.2.1 h.2.2.2.1

namespace Spells

theorem isBody (h : Spells quote body text) : IsBody quote body := by
  induction h with
  | nil => exact .nil
  | plain hquote hescape hline _ ih => exact .plain hquote hescape hline ih
  | lineFeed _ ih | tab _ ih | carriageReturn _ ih | null _ ih => exact .escape (by decide) ih
  | itself hc _ ih =>
    refine .escape ?_ ih
    rintro rfl
    exact hc (by decide)

theorem decode_eq (h : Spells quote body text) : decode body = text := by
  induction h with
  | nil => rfl
  | plain _ hescape _ _ ih => rw [decode_plain hescape, ih]
  | lineFeed _ ih | tab _ ih | carriageReturn _ ih | null _ ih => rw [decode_escape, ih]; rfl
  | itself hc _ ih => rw [decode_escape, escaped_itself hc, ih]

end Spells

/-- A body spells the text that it decodes to. -/
theorem IsBody.spells_decode (h : IsBody quote body) : Spells quote body (decode body) := by
  induction h with
  | nil => exact .nil
  | plain hquote hescape hline _ ih =>
    rw [decode_plain hescape]
    exact .plain hquote hescape hline ih
  | @escape c body hline _ ih =>
    rw [decode_escape]
    by_cases hitself : c ∈ ['n', 't', 'r', '0', '\n']
    · simp only [List.mem_cons, List.not_mem_nil, or_false] at hitself
      rcases hitself with rfl | rfl | rfl | rfl | rfl
      · exact .lineFeed ih
      · exact .tab ih
      · exact .carriageReturn ih
      · exact .null ih
      · exact absurd rfl hline
    · rw [escaped_itself hitself]
      exact .itself hitself ih

/-- What a body stands for is what it decodes to, and nothing else. -/
theorem spells_iff : Spells quote body text ↔ IsBody quote body ∧ decode body = text := by
  constructor
  · intro h
    exact ⟨h.isBody, h.decode_eq⟩
  · rintro ⟨hbody, rfl⟩
    exact hbody.spells_decode

/-! ### Encoding -/

/-- A text that is written as a body is what the body stands for. -/
theorem spells_encode (hquote : quote = '"' ∨ quote = '\'') (text : List Char) :
    Spells quote (encode quote text) text := by
  induction text with
  | nil => exact .nil
  | cons c rest ih =>
    show Spells quote (escape quote c ++ encode quote rest) (c :: rest)
    unfold escape
    split
    · next hc =>
      -- a backslash in front of a backslash or a quote leaves it what it is
      refine .itself ?_ ih
      rcases hc with rfl | rfl
      · decide
      · rcases hquote with rfl | rfl <;> decide
    · next hc =>
      rw [not_or] at hc
      split
      · next hline =>
        subst hline
        exact .lineFeed ih
      · next hline => exact .plain hc.2 hc.1 hline ih

theorem IsBody.line_feed_not_mem (h : IsBody quote body) : '\n' ∉ body := by
  induction h with
  | nil => exact List.not_mem_nil
  | plain _ _ hline _ ih => exact List.not_mem_cons_of_ne_of_not_mem (Ne.symm hline) ih
  | escape hline _ ih =>
    refine List.not_mem_cons_of_ne_of_not_mem (by decide) ?_
    exact List.not_mem_cons_of_ne_of_not_mem (Ne.symm hline) ih

end Quoted

/-! ### Sources -/

open Pattern Quoted

/-- A literal that fills a whole source is all that is matched there. -/
theorem longest?_literal {quote : Char} {body : List Char} (hquote : quote = '"' ∨ quote = '\'')
    (hbody : IsBody quote body) :
    longest? (quote :: (body ++ [quote])) =
      some (.closedText quote, (quote :: (body ++ [quote])).length) := by
  refine longest?_eq_some_iff.mpr ⟨?_, Nat.le_refl _, ?_, fun q _ run _ hfront => ?_⟩
  · rcases hquote with rfl | rfl <;> simp [all]
  · rw [List.take_length]
    exact .closedText hbody
  · exact hfront.length_le

/-- A text is read off each of its literals. -/
theorem ofSource?_literal {quote : Char} (hquote : quote = '"' ∨ quote = '\'') (text : String) :
    Token.ofSource? (literal quote text) =
      .ok [⟨.text text, literal quote text, .start⟩,
        ⟨.endOfInput, "", .behind (literal quote text).toList⟩] := by
  have hspells := spells_encode hquote text.toList
  have hlongest := longest?_literal hquote hspells.isBody
  have hkind : (closedText quote).kind (quote :: (encode quote text.toList ++ [quote])) =
      .text text := by
    show Token.Kind.text (String.ofList (decode
      (encode quote text.toList ++ [quote]).dropLast)) = _
    rw [List.dropLast_concat, hspells.decode_eq, String.ofList_toList]
  have hscan : scan ((quote :: (encode quote text.toList ++ [quote])) ++ []) .start = _ :=
    scan_of_token rfl (by rw [List.append_nil]; exact hlongest)
  rw [List.append_nil, hkind, Position.advance_start] at hscan
  rw [Token.ofSource?, literal, String.toList_ofList, hscan, scan.eq_def []]
  simp only [List.mapM_cons, List.mapM_nil, id_eq]
  rfl

/-- The lexeme of a token with a text is a literal whose body spells the text. -/
theorem exists_body_of_text {t : Token} {text : String} (h : t.IsRead)
    (hkind : t.kind = .text text) :
    ∃ quote body, (quote = '"' ∨ quote = '\'') ∧ t.lexeme.toList = quote :: (body ++ [quote]) ∧
      Spells quote body text.toList := by
  obtain ⟨p, hp, -, hmatches, hread⟩ := h
  rw [hkind] at hread
  generalize t.lexeme.toList = lexeme at hmatches hread
  cases hmatches with
  | @closedText quote body hbody =>
    refine ⟨quote, body, quote_of_mem_all (.inl hp), rfl, spells_iff.mpr ⟨hbody, ?_⟩⟩
    have htext : text = String.ofList (decode (body ++ [quote]).dropLast) :=
      Token.Kind.text.inj hread
    rw [htext, List.dropLast_concat, String.toList_ofList]
  | word =>
    -- a word is never a text
    obtain ⟨_, hword⟩ | ⟨_, hword⟩ | hword := wordKind_cases (String.ofList _) <;>
      exact Token.Kind.noConfusion (hread.trans hword)
  | whole | decimal | openText | lineComment | blockComment | symbol | lineFeed | blanks =>
    exact Token.Kind.noConfusion hread

/-- The tokens that a scan gives before it ends are read. -/
theorem isRead_of_mem_scan {s : List Char} {t : Token} (h : .ok t ∈ scan s .start) :
    t.IsRead ∨ t.kind = .endOfInput := by
  have hstart : Position.start = .behind [] := rfl
  obtain ⟨ts, last, text, rest, hitems, -, hlaid, hend⟩ := (scans s .start).laidOut hstart
  rw [hitems] at h
  rcases List.mem_append.mp h with h | h
  · obtain ⟨t', ht', heq⟩ := List.mem_map.mp h
    cases heq
    exact .inl (hlaid.isRead t ht')
  · rw [← List.mem_singleton.mp h] at hend
    cases hend
    exact .inr rfl

/-- Each text can be written as a literal with either quote: a backslash is put in front of
each backslash and each quote, and a line feed is written as an escape. The literal is
read as one token, which has this text and is all of the source. And each token with a
text that any source gives is a quote, a body without a line feed, and the same quote,
where the body spells this text and no other one. -/
theorem text_literals_exact :
    (∀ (quote : Char) (text : String), quote = '"' ∨ quote = '\'' →
      Token.ofSource? (literal quote text) =
        .ok [⟨.text text, literal quote text, .start⟩,
          ⟨.endOfInput, "", .behind (literal quote text).toList⟩]) ∧
    ∀ (source : String) (t : Token) (text : String), .ok t ∈ scan source.toList .start →
      t.kind = .text text →
      ∃ quote body, (quote = '"' ∨ quote = '\'') ∧
        t.lexeme.toList = quote :: (body ++ [quote]) ∧ '\n' ∉ body ∧
        ∀ other, Spells quote body other ↔ other = text.toList := by
  refine ⟨fun _ text hquote => ofSource?_literal hquote text, fun source t text hmem hkind => ?_⟩
  rcases isRead_of_mem_scan hmem with hread | hend
  · obtain ⟨quote, body, hquote, hlexeme, hspells⟩ := exists_body_of_text hread hkind
    refine ⟨quote, body, hquote, hlexeme, hspells.isBody.line_feed_not_mem, fun other => ?_⟩
    rw [spells_iff, ← hspells.decode_eq]
    exact ⟨fun h => h.2.symm, fun h => ⟨hspells.isBody, h.symm⟩⟩
  · rw [hkind] at hend
    cases hend

/-- A backslash, a quote and a line feed are written with escapes and read back; an escaped
letter that is no escape of its own stands for itself. -/
theorem text_literals_exact_of_escapes :
    let text := "\\\"\n"
    let written := "\"\\\\\\\"\\n\""
    literal '"' text = written ∧
      Token.ofSource? written =
        .ok [⟨.text text, written, .start⟩, ⟨.endOfInput, "", .behind written.toList⟩] ∧
      .ok ⟨.text "q", "'\\q'", .start⟩ ∈ scan "'\\q'".toList .start ∧
      ∃ quote body, (quote = '"' ∨ quote = '\'') ∧
        "'\\q'".toList = quote :: (body ++ [quote]) ∧ '\n' ∉ body ∧
        ∀ other, Spells quote body other ↔ other = "q".toList := by
  intro text written
  obtain ⟨hwritten, hread⟩ := text_literals_exact
  have hliteral : literal '"' text = written := by decide
  have hmem : .ok ⟨.text "q", "'\\q'", .start⟩ ∈ scan "'\\q'".toList .start := by
    have hlongest : longest? (['\'', '\\', 'q', '\''] ++ []) = some (.closedText '\'', 4) := rfl
    exact (scan_of_token rfl hlongest) ▸ List.mem_cons_self
  have hsource := hwritten '"' text (.inl rfl)
  rw [hliteral] at hsource
  exact ⟨hliteral, hsource, hmem, hread _ _ _ hmem rfl⟩

end TypedScript
