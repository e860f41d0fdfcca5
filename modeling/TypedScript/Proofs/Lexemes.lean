import Mathlib.Data.List.TakeWhile
import TypedScript.Token.Pattern

/-!
# Longest matches

`Pattern.Matches` says which runs of characters each lexical pattern stands for, apart
from how they are looked for. The reach of a pattern is the length of the longest run
in front of a text that it matches (`matches_take_reach`, `Matches.length_le_reach`),
and so the pattern that is picked for a text is the one whose match is the longest of
all (`longest?_eq_some_iff`), with none picked only if none matches
(`longest?_eq_none_iff`). As no run is matched by two patterns (`Matches.unique`), the
order in which the patterns are tried does not matter.
-/

namespace TypedScript

namespace Quoted

/-- What may stand between the quotes of a text literal. -/
inductive IsBody (quote : Char) : List Char → Prop where
  | nil : IsBody quote []
  | plain {c : Char} {body : List Char} : c ≠ quote → c ≠ '\\' → c ≠ '\n' →
      IsBody quote body → IsBody quote (c :: body)
  | escape {c : Char} {body : List Char} : c ≠ '\n' →
      IsBody quote body → IsBody quote ('\\' :: c :: body)

variable {quote : Char} {body rest s : List Char}

theorem bodyLength_plain {c : Char} (hquote : c ≠ quote) (hescape : c ≠ '\\') (hline : c ≠ '\n') :
    bodyLength quote (c :: s) = bodyLength quote s + 1 := by
  rw [bodyLength.eq_4 _ _ _ (fun h _ => hescape h) (fun _ _ h _ => hescape h)]
  simp [hquote, hline]

/-- A body that is read goes as far as it reaches, and then on. -/
theorem IsBody.bodyLength_append (h : IsBody quote body) (rest : List Char) :
    bodyLength quote (body ++ rest) = body.length + bodyLength quote rest := by
  induction h with
  | nil => simp
  | plain hquote hescape hline _ ih =>
    rw [List.cons_append, bodyLength_plain hquote hescape hline, ih, List.length_cons]
    omega
  | escape hline _ ih =>
    rw [List.cons_append, List.cons_append, bodyLength.eq_3, if_neg hline, ih]
    simp only [List.length_cons]
    omega

theorem bodyLength_quote (hquote : quote ≠ '\\') (s : List Char) :
    bodyLength quote (quote :: s) = 0 := by
  rw [bodyLength.eq_4 _ _ _ (fun h _ => hquote h) (fun _ _ h _ => hquote h)]
  simp

/-- What is read is a body. -/
theorem isBody_take_bodyLength (quote : Char) (s : List Char) :
    IsBody quote (s.take (bodyLength quote s)) := by
  fun_induction bodyLength quote s with
  | case1 => exact .nil
  | case2 => exact .nil
  | case3 => exact .nil
  | case4 c rest hline ih => exact .escape hline ih
  | case5 => exact .nil
  | case6 c rest hends hescape hc ih =>
    have hplain : c ≠ '\\' := by
      rintro rfl
      cases rest with
      | nil => exact hends rfl rfl
      | cons d rest => exact hescape d rest rfl rfl
    simp only [not_or] at hc
    exact .plain hc.1 hplain hc.2 ih

theorem bodyLength_le (quote : Char) (s : List Char) : bodyLength quote s ≤ s.length := by
  fun_induction bodyLength quote s <;> simp_all

/-- No body in front of a text is longer than the one that is read. -/
theorem IsBody.length_le (h : IsBody quote body) (hfront : body <+: s) :
    body.length ≤ bodyLength quote s := by
  obtain ⟨rest, rfl⟩ := hfront
  rw [h.bodyLength_append]
  exact Nat.le_add_right _ _

/-- A text as the body that is read off it and what stands behind. -/
theorem exists_body (quote : Char) (s : List Char) :
    ∃ body rest, s = body ++ rest ∧ IsBody quote body ∧ bodyLength quote s = body.length :=
  ⟨_, _, (List.take_append_drop _ s).symm, isBody_take_bodyLength quote s,
    (List.length_take_of_le (bodyLength_le quote s)).symm⟩

/-- The closing quote is not part of the body, so a body before it goes no further. -/
theorem IsBody.bodyLength_closed (h : IsBody quote body) (hquote : quote ≠ '\\')
    (rest : List Char) : bodyLength quote (body ++ quote :: rest) = body.length := by
  rw [h.bodyLength_append, bodyLength_quote hquote, Nat.add_zero]

/-- A body holds no quote that would close it. -/
theorem IsBody.not_closed (h : IsBody quote body) (hquote : quote ≠ '\\')
    (rest : List Char) : ¬ IsBody quote (body ++ quote :: rest) := by
  intro hlonger
  have hlength := hlonger.length_le (List.prefix_refl _)
  rw [h.bodyLength_closed hquote] at hlength
  simp only [List.length_append, List.length_cons] at hlength
  omega

end Quoted

namespace Pattern

/-! ### Runs of characters -/

/-- A run of one character or more that all satisfy `p`. -/
structure IsRun (p : Char → Bool) (run : List Char) : Prop where
  nonempty : run ≠ []
  all : ∀ c ∈ run, p c = true

section Runs

variable {p : Char → Bool} {run rest s : List Char}

theorem runLength_append (h : ∀ c ∈ run, p c = true) (rest : List Char) :
    runLength p (run ++ rest) = run.length + runLength p rest := by
  rw [runLength, List.takeWhile_append_of_pos h, List.length_append, runLength]

/-- A text as the run that is read off it and what stands behind. -/
theorem exists_run (p : Char → Bool) (s : List Char) :
    ∃ run rest, s = run ++ rest ∧ (∀ c ∈ run, p c = true) ∧ runLength p s = run.length :=
  ⟨s.takeWhile p, s.dropWhile p, List.takeWhile_append_dropWhile.symm,
    fun _ hc => List.mem_takeWhile_imp hc, rfl⟩

theorem length_le_runLength (h : ∀ c ∈ run, p c = true) (hfront : run <+: s) :
    run.length ≤ runLength p s := by
  obtain ⟨rest, rfl⟩ := hfront
  rw [runLength_append h]
  exact Nat.le_add_right _ _

end Runs

/-! ### Block comments -/

/-- What stands in front of the first `*/` of a text, and behind it. -/
theorem commentEnd?_eq_some {s : List Char} {n : Nat} (h : commentEnd? s = some n) :
    ∃ body rest, s = body ++ '*' :: '/' :: rest ∧ n = body.length + 2 ∧
      ¬ ['*', '/'] <:+: body ++ ['*'] := by
  fun_induction commentEnd? s generalizing n with
  | case1 => simp at h
  | case2 rest =>
    cases h
    exact ⟨[], rest, rfl, rfl, by decide⟩
  | case3 c rest hopen ih =>
    obtain ⟨m, hm, rfl⟩ := Option.map_eq_some_iff.mp h
    obtain ⟨body, behind, rfl, rfl, hfirst⟩ := ih hm
    refine ⟨c :: body, behind, rfl, rfl, ?_⟩
    rw [List.cons_append, List.infix_cons_iff, not_or]
    refine ⟨fun hfront => ?_, hfirst⟩
    obtain ⟨rfl, hslash⟩ := List.cons_prefix_cons.mp hfront
    cases body with
    | nil => simp at hslash
    | cons d body =>
      obtain ⟨rfl, -⟩ := List.cons_prefix_cons.mp hslash
      exact hopen _ rfl rfl

theorem commentEnd?_of_first {body : List Char} (h : ¬ ['*', '/'] <:+: body ++ ['*'])
    (rest : List Char) :
    commentEnd? (body ++ '*' :: '/' :: rest) = some (body.length + 2) := by
  induction body with
  | nil => rfl
  | cons c body ih =>
    rw [List.cons_append, List.infix_cons_iff, not_or] at h
    rw [List.cons_append, commentEnd?.eq_3]
    · rw [ih h.2]
      rfl
    · rintro behind rfl hbehind
      refine h.1 (List.cons_prefix_cons.mpr ⟨rfl, ?_⟩)
      cases body with
      | nil => simp at hbehind
      | cons d body =>
        cases (List.cons.inj hbehind).1
        exact List.cons_prefix_cons.mpr ⟨rfl, List.nil_prefix⟩

/-! ### What patterns match -/

/-- The character runs that each pattern stands for. A block comment ends at the first
`*/` behind its opening. -/
inductive Matches : Pattern → List Char → Prop where
  | whole {digits : List Char} : IsRun Char.isDigit digits → Matches .number digits
  | decimal {digits fraction : List Char} : IsRun Char.isDigit digits →
      IsRun Char.isDigit fraction → Matches .number (digits ++ '.' :: fraction)
  | closedText {quote : Char} {body : List Char} : Quoted.IsBody quote body →
      Matches (.closedText quote) (quote :: (body ++ [quote]))
  | openText {quote : Char} {body : List Char} : Quoted.IsBody quote body →
      Matches (.openText quote) (quote :: body)
  | word {first : Char} {rest : List Char} : startsWord first = true →
      (∀ c ∈ rest, continuesWord c = true) → Matches .word (first :: rest)
  | lineComment {body : List Char} : (∀ c ∈ body, c ≠ '\n' ∧ c ≠ '\r') →
      Matches .lineComment ('/' :: '/' :: body)
  | blockComment {body : List Char} : ¬ ['*', '/'] <:+: body ++ ['*'] →
      Matches .blockComment ('/' :: '*' :: (body ++ ['*', '/']))
  | symbol (sign : Symbol) : Matches (.symbol sign) sign.spelling.toList
  | lineFeed : Matches .lineFeed ['\n']
  | blanks {run : List Char} : IsRun isBlank run → Matches .blanks run

/-- The quotes that open a text literal. -/
theorem quote_of_mem_all {quote : Char}
    (h : .closedText quote ∈ all ∨ .openText quote ∈ all) : quote = '"' ∨ quote = '\'' := by
  simpa [all] using h

theorem ne_escape_of_quote {quote : Char}
    (h : .closedText quote ∈ all ∨ .openText quote ∈ all) : quote ≠ '\\' := by
  rcases quote_of_mem_all h with rfl | rfl <;> decide

variable {p q : Pattern} {run s : List Char} {n : Nat}

theorem Matches.ne_nil (h : p.Matches run) : run ≠ [] := by
  cases h with
  | whole hdigits => exact hdigits.nonempty
  | decimal hdigits => simp
  | closedText | openText | word | lineComment | blockComment | lineFeed => simp
  | symbol sign => cases sign <;> decide
  | blanks hblanks => exact hblanks.nonempty

/-! ### The reach of a pattern -/

theorem le_numberLength {digits fraction : List Char} (hdigits : IsRun Char.isDigit digits)
    (hfraction : IsRun Char.isDigit fraction) (rest : List Char) :
    digits.length + 1 + fraction.length ≤ numberLength (digits ++ '.' :: (fraction ++ rest)) := by
  have hwhole : runLength Char.isDigit (digits ++ '.' :: (fraction ++ rest)) = digits.length := by
    rw [runLength_append hdigits.all]
    simp [runLength]
  have hpos : digits.length ≠ 0 := by simp [hdigits.nonempty]
  have hpos' : fraction.length ≠ 0 := by simp [hfraction.nonempty]
  simp only [numberLength, hwhole, if_neg hpos, List.drop_left, runLength_append hfraction.all]
  split <;> omega

theorem runLength_le_numberLength (s : List Char) :
    runLength Char.isDigit s ≤ numberLength s := by
  simp only [numberLength]
  split
  · omega
  · split
    · split <;> omega
    · exact Nat.le_refl _

/-- No run in front of a text that a pattern matches is longer than its reach. -/
theorem Matches.length_le_reach (h : p.Matches run) (hp : p ∈ all) (hfront : run <+: s) :
    run.length ≤ p.reach s := by
  cases h with
  | whole hdigits =>
    exact (length_le_runLength hdigits.all hfront).trans (runLength_le_numberLength s)
  | decimal hdigits hfraction =>
    obtain ⟨rest, rfl⟩ := hfront
    -- digits may go on behind the run, so the reach is a bound only
    have hreach := le_numberLength hdigits hfraction rest
    simp only [List.append_assoc, List.cons_append, List.length_append, List.length_cons]
    exact le_trans (by omega) hreach
  | @closedText quote body hbody =>
    -- a quote is not the escape, so the body ends at the first one
    have hquote := ne_escape_of_quote (.inl hp)
    obtain ⟨rest, rfl⟩ := hfront
    simp only [List.cons_append, List.append_assoc, List.nil_append, reach,
      hbody.bodyLength_closed hquote, List.drop_left, List.head?_cons, and_self, if_true,
      List.length_cons, List.length_append, List.length_nil]
    omega
  | @openText quote body hbody =>
    obtain ⟨rest, rfl⟩ := hfront
    simp only [List.cons_append, reach, if_true, hbody.bodyLength_append, List.length_cons]
    omega
  | word hfirst hrest =>
    obtain ⟨rest, rfl⟩ := hfront
    simp only [List.cons_append, reach, hfirst, if_true, runLength_append hrest,
      List.length_cons]
    omega
  | lineComment hbody =>
    obtain ⟨rest, rfl⟩ := hfront
    have hline := runLength_append (p := fun c => decide (c ≠ '\n' ∧ c ≠ '\r'))
      (fun c hc => decide_eq_true (hbody c hc)) rest
    simp only [List.cons_append, reach, hline, List.length_cons]
    omega
  | @blockComment body hfirst =>
    obtain ⟨rest, rfl⟩ := hfront
    simp only [List.cons_append, List.append_assoc, List.nil_append, reach,
      commentEnd?_of_first hfirst, List.length_cons, List.length_append, List.length_nil]
    omega
  | symbol sign =>
    simp only [reach, List.isPrefixOf_iff_prefix, if_pos hfront, String.length_toList]
    exact Nat.le_refl _
  | lineFeed =>
    obtain ⟨rest, rfl⟩ := hfront
    simp [reach]
  | blanks hblanks => exact length_le_runLength hblanks.all hfront

theorem exists_number (h : 0 < numberLength s) :
    ∃ run rest, s = run ++ rest ∧ Matches .number run ∧ numberLength s = run.length := by
  obtain ⟨digits, rest, rfl, hall, hdigits⟩ := exists_run Char.isDigit s
  simp only [numberLength, hdigits, List.drop_left] at h ⊢
  by_cases hnil : digits.length = 0
  · simp [hnil] at h
  have hwhole : IsRun Char.isDigit digits := ⟨by rintro rfl; exact hnil rfl, hall⟩
  rw [if_neg hnil]
  split
  · next behind =>
    obtain ⟨fraction, rest, rfl, hall', hfraction⟩ := exists_run Char.isDigit behind
    rw [hfraction]
    split
    · exact ⟨digits, _, rfl, .whole hwhole, rfl⟩
    · next hnil' =>
      refine ⟨digits ++ '.' :: fraction, rest, by simp, ?_, ?_⟩
      · exact .decimal hwhole ⟨by rintro rfl; exact hnil' rfl, hall'⟩
      · simp only [List.length_append, List.length_cons]
        omega
  · exact ⟨digits, rest, rfl, .whole hwhole, rfl⟩

/-- What a pattern reaches over is a run that it matches. -/
theorem exists_match_of_reach_pos (p : Pattern) (h : 0 < p.reach s) :
    ∃ run rest, s = run ++ rest ∧ p.Matches run ∧ p.reach s = run.length := by
  cases p with
  | number => exact exists_number h
  | closedText quote =>
    match s with
    | [] => simp [reach] at h
    | c :: s =>
      obtain ⟨body, rest, rfl, hbody, hlength⟩ := Quoted.exists_body quote s
      simp only [reach, hlength, List.drop_left] at h ⊢
      split at h
      · -- the body ends in front of the quote that the text begins with
        next hquotes =>
        obtain ⟨rfl, hend⟩ := hquotes
        obtain ⟨rest, rfl⟩ := List.head?_eq_some_iff.mp hend
        exact ⟨c :: (body ++ [c]), rest, by simp, .closedText hbody, by simp⟩
      · simp at h
  | openText quote =>
    match s with
    | [] => simp [reach] at h
    | c :: s =>
      obtain ⟨body, rest, rfl, hbody, hlength⟩ := Quoted.exists_body quote s
      simp only [reach, hlength] at h ⊢
      split at h
      · next hquote =>
        subst hquote
        exact ⟨c :: body, rest, rfl, .openText hbody, by simp⟩
      · simp at h
  | word =>
    match s with
    | [] => simp [reach] at h
    | c :: s =>
      obtain ⟨body, rest, rfl, hbody, hlength⟩ := exists_run continuesWord s
      simp only [reach, hlength] at h ⊢
      split at h
      · next hfirst => exact ⟨c :: body, rest, rfl, .word hfirst hbody, by simp [hfirst]⟩
      · simp at h
  | lineComment =>
    simp only [reach] at h ⊢
    split at h
    · next s =>
      obtain ⟨body, rest, rfl, hbody, hlength⟩ :=
        exists_run (fun c => decide (c ≠ '\n' ∧ c ≠ '\r')) s
      exact ⟨'/' :: '/' :: body, rest, rfl, .lineComment fun c hc => of_decide_eq_true (hbody c hc),
        by simp only [hlength, List.length_cons]⟩
    · simp at h
  | blockComment =>
    simp only [reach] at h ⊢
    split at h
    · next s =>
      split at h
      · next n hend =>
        -- the end that is found is the first one, as the pattern asks for
        obtain ⟨body, rest, rfl, rfl, hfirst⟩ := commentEnd?_eq_some hend
        exact ⟨'/' :: '*' :: (body ++ ['*', '/']), rest, by simp, .blockComment hfirst,
          by simp⟩
      · simp at h
    · simp at h
  | symbol sign =>
    simp only [reach] at h ⊢
    split at h
    · next hfront =>
      obtain ⟨rest, rfl⟩ := List.isPrefixOf_iff_prefix.mp hfront
      exact ⟨sign.spelling.toList, rest, rfl, .symbol sign,
        by rw [if_pos hfront, String.length_toList]⟩
    · simp at h
  | lineFeed =>
    simp only [reach] at h ⊢
    split at h
    · next hhead =>
      obtain ⟨rest, rfl⟩ := List.head?_eq_some_iff.mp hhead
      exact ⟨['\n'], rest, rfl, .lineFeed, by simp⟩
    · simp at h
  | blanks =>
    obtain ⟨run, rest, rfl, hall, hlength⟩ := exists_run isBlank s
    simp only [reach, hlength] at h ⊢
    exact ⟨run, rest, rfl, .blanks ⟨List.ne_nil_of_length_pos h, hall⟩, rfl⟩

theorem reach_le_length (p : Pattern) (s : List Char) : p.reach s ≤ s.length := by
  rcases Nat.eq_zero_or_pos (p.reach s) with hzero | hpos
  · omega
  · obtain ⟨run, rest, rfl, -, hlength⟩ := exists_match_of_reach_pos p hpos
    simp [hlength]

theorem matches_take_reach (h : 0 < p.reach s) : p.Matches (s.take (p.reach s)) := by
  obtain ⟨run, rest, rfl, hmatches, hlength⟩ := exists_match_of_reach_pos p h
  rwa [hlength, List.take_left]

/-! ### No run has two patterns -/

/-- What the first character of a run tells about the run. -/
inductive Opening where
  | digit
  | quote
  | letter
  | lineFeed
  | blank
  | sign
deriving DecidableEq

/-- What a character opens. -/
def Opening.ofChar (c : Char) : Opening :=
  if c.isDigit then .digit
  else if c = '"' ∨ c = '\'' then .quote
  else if startsWord c then .letter
  else if c = '\n' then .lineFeed
  else if isBlank c then .blank
  else .sign

/-- What the runs of a pattern open with. -/
def opening : Pattern → Opening
  | .number => .digit
  | .closedText _ | .openText _ => .quote
  | .word => .letter
  | .lineFeed => .lineFeed
  | .blanks => .blank
  | .lineComment | .blockComment | .symbol _ => .sign

/-- All letters lie behind the digits. -/
theorem not_isDigit_of_isAlpha {c : Char} (h : c.isAlpha = true) : c.isDigit = false := by
  have hletter : 'A'.toNat ≤ c.toNat := by
    rcases Bool.or_eq_true_iff.mp h with hupper | hlower
    · exact UInt32.le_iff_toNat_le.mp (of_decide_eq_true hupper).1
    · have hsmall : 'a'.toNat ≤ c.toNat := UInt32.le_iff_toNat_le.mp
        (of_decide_eq_true (Bool.and_eq_true_iff.mp hlower).1)
      exact Nat.le_trans (by decide) hsmall
  rw [Bool.eq_false_iff]
  intro hdigit
  have hnine : c.toNat ≤ '9'.toNat := (Char.isDigit_iff_toNat.mp hdigit).2
  exact absurd (Nat.le_trans hletter hnine) (by decide)

theorem opening_of_letter {c : Char} (h : startsWord c = true) : Opening.ofChar c = .letter := by
  have hdigit : c.isDigit = false := by
    simp only [startsWord, Bool.or_eq_true, decide_eq_true_eq] at h
    rcases h with (h | rfl) | rfl
    · exact not_isDigit_of_isAlpha h
    · decide
    · decide
  have hquote : ¬ (c = '"' ∨ c = '\'') := by
    rintro (rfl | rfl) <;> simp [startsWord] at h
  simp only [Opening.ofChar, hdigit, Bool.false_eq_true, if_false, if_neg hquote, h, if_true]

theorem opening_of_blank {c : Char} (h : isBlank c = true) : Opening.ofChar c = .blank := by
  simp only [isBlank, Bool.or_eq_true, decide_eq_true_eq] at h
  rcases h with ((rfl | rfl) | rfl) | rfl <;> decide

theorem opening_of_sign (sign : Symbol) :
    sign.spelling.toList.head?.map Opening.ofChar = some .sign := by
  cases sign <;> decide

/-- The first character of a run decides what kind of run it is. -/
theorem Matches.opening_eq {c : Char} {rest : List Char} (h : p.Matches (c :: rest))
    (hp : p ∈ all) : p.opening = .ofChar c := by
  generalize hrun : c :: rest = run at h
  cases h with
  | whole hdigits =>
    subst hrun
    simp [opening, Opening.ofChar, hdigits.all c List.mem_cons_self]
  | @decimal digits fraction hdigits hfraction =>
    cases digits with
    | nil => exact absurd rfl hdigits.nonempty
    | cons d digits =>
      cases hrun
      simp [opening, Opening.ofChar, hdigits.all _ List.mem_cons_self]
  | closedText =>
    cases hrun
    rcases quote_of_mem_all (.inl hp) with rfl | rfl <;> rfl
  | openText =>
    cases hrun
    rcases quote_of_mem_all (.inr hp) with rfl | rfl <;> rfl
  | word hfirst =>
    cases hrun
    exact (opening_of_letter hfirst).symm
  | lineComment | blockComment | lineFeed =>
    cases hrun
    rfl
  | symbol sign =>
    have hsign := opening_of_sign sign
    rw [← hrun] at hsign
    exact (Option.some.inj hsign).symm
  | blanks hblanks =>
    subst hrun
    exact (opening_of_blank (hblanks.all c List.mem_cons_self)).symm

theorem Matches.opening_unique (h : p.Matches run) (h' : q.Matches (run ++ s)) (hp : p ∈ all)
    (hq : q ∈ all) : p.opening = q.opening := by
  cases run with
  | nil => exact absurd rfl h.ne_nil
  | cons c run => exact (h.opening_eq hp).trans (Matches.opening_eq h' hq).symm

theorem eq_number_of_opening (h : p.opening = .digit) : p = .number := by
  cases p <;> simp [opening] at h ⊢

theorem eq_word_of_opening (h : p.opening = .letter) : p = .word := by
  cases p <;> simp [opening] at h ⊢

theorem eq_lineFeed_of_opening (h : p.opening = .lineFeed) : p = .lineFeed := by
  cases p <;> simp [opening] at h ⊢

theorem eq_blanks_of_opening (h : p.opening = .blank) : p = .blanks := by
  cases p <;> simp [opening] at h ⊢

theorem text_of_opening (h : p.opening = .quote) :
    ∃ quote, p = .closedText quote ∨ p = .openText quote := by
  cases p <;> simp [opening] at h ⊢

theorem sign_of_opening (h : p.opening = .sign) :
    p = .lineComment ∨ p = .blockComment ∨ ∃ sign, p = .symbol sign := by
  cases p <;> simp [opening] at h ⊢

/-- No symbol is written as a comment begins. -/
theorem spelling_ne_comment (sign : Symbol) (rest : List Char) :
    sign.spelling.toList ≠ '/' :: '/' :: rest ∧ sign.spelling.toList ≠ '/' :: '*' :: rest := by
  have hopening : sign.spelling.toList.take 2 ≠ ['/', '/'] ∧
      sign.spelling.toList.take 2 ≠ ['/', '*'] := by
    cases sign <;> decide
  exact ⟨fun h => hopening.1 (by rw [h]; rfl), fun h => hopening.2 (by rw [h]; rfl)⟩

theorem ofSpelling?_spelling (sign : Symbol) : Symbol.ofSpelling? sign.spelling = some sign := by
  cases sign <;> decide

theorem spelling_injective {sign sign' : Symbol} (h : sign.spelling = sign'.spelling) :
    sign = sign' :=
  Option.some.inj <| by rw [← ofSpelling?_spelling, h, ofSpelling?_spelling]

/-- No two patterns match the same run. -/
theorem Matches.unique (h : p.Matches run) (h' : q.Matches run) (hp : p ∈ all) (hq : q ∈ all) :
    p = q := by
  -- patterns with a run in common open with the same character, which leaves few cases
  have hopening : q.opening = p.opening :=
    (Matches.opening_unique (s := []) h (by rwa [List.append_nil]) hp hq).symm
  generalize hrun : run = run' at h'
  cases h with
  | whole | decimal => exact (eq_number_of_opening hopening).symm
  | word => exact (eq_word_of_opening hopening).symm
  | lineFeed => exact (eq_lineFeed_of_opening hopening).symm
  | blanks => exact (eq_blanks_of_opening hopening).symm
  | closedText hbody =>
    obtain ⟨quote, rfl | rfl⟩ := text_of_opening hopening
    · cases h'
      rw [(List.cons.inj hrun).1]
    · cases h' with
      -- the body of an unclosed text cannot go over the quote that closes the other one
      | openText hopen =>
        obtain ⟨rfl, rfl⟩ := List.cons.inj hrun
        exact absurd hopen (hbody.not_closed (ne_escape_of_quote (.inl hp)) [])
  | openText hbody =>
    obtain ⟨quote, rfl | rfl⟩ := text_of_opening hopening
    · cases h' with
      | closedText hclosed =>
        obtain ⟨rfl, rfl⟩ := List.cons.inj hrun
        exact absurd hbody (hclosed.not_closed (ne_escape_of_quote (.inl hq)) [])
    · cases h'
      rw [(List.cons.inj hrun).1]
  | lineComment =>
    obtain rfl | rfl | ⟨sign, rfl⟩ := sign_of_opening hopening
    · rfl
    · cases h'
      simp at hrun
    · cases h'
      exact absurd hrun.symm (spelling_ne_comment sign _).1
  | blockComment =>
    obtain rfl | rfl | ⟨sign, rfl⟩ := sign_of_opening hopening
    · cases h'
      simp at hrun
    · rfl
    · cases h'
      exact absurd hrun.symm (spelling_ne_comment sign _).2
  | symbol sign =>
    obtain rfl | rfl | ⟨sign', rfl⟩ := sign_of_opening hopening
    · cases h'
      exact absurd hrun (spelling_ne_comment sign _).1
    · cases h'
      exact absurd hrun (spelling_ne_comment sign _).2
    · cases h'
      rw [spelling_injective (String.toList_inj.mp hrun)]

/-! ### The longest match -/

theorem farthest?_eq_none {ps : List Pattern} (h : farthest? ps s = none) :
    ∀ p ∈ ps, p.reach s = 0 := by
  induction ps with
  | nil => simp
  | cons q ps ih =>
    simp only [farthest?] at h
    split at h
    · next hnone =>
      split at h
      · simp at h
      · next hzero =>
        exact List.forall_mem_cons.mpr ⟨Nat.eq_zero_of_not_pos hzero, ih hnone⟩
    · split at h <;> simp at h

theorem farthest?_eq_some {ps : List Pattern} (h : farthest? ps s = some (p, n)) :
    p ∈ ps ∧ n = p.reach s ∧ ∀ q ∈ ps, q.reach s ≤ n := by
  induction ps generalizing p n with
  | nil => simp [farthest?] at h
  | cons q ps ih =>
    simp only [farthest?] at h
    split at h
    · next hnone =>
      have hzero := farthest?_eq_none hnone
      split at h
      · cases h
        exact ⟨List.mem_cons_self, rfl, List.forall_mem_cons.mpr
          ⟨Nat.le_refl _, fun r hr => by rw [hzero r hr]; exact Nat.zero_le _⟩⟩
      · simp at h
    · next r m hsome =>
      obtain ⟨hmem, hreach, hmax⟩ := ih hsome
      split at h
      · next hle =>
        cases h
        exact ⟨List.mem_cons_self, rfl, List.forall_mem_cons.mpr
          ⟨Nat.le_refl _, fun r hr => (hmax r hr).trans hle⟩⟩
      · next hlt =>
        cases h
        exact ⟨List.mem_cons_of_mem _ hmem, hreach, List.forall_mem_cons.mpr
          ⟨by omega, hmax⟩⟩

/-- Nothing is picked for a text only if no pattern matches in front of it. -/
theorem longest?_eq_none_iff :
    longest? s = none ↔ ∀ q ∈ all, ∀ run, q.Matches run → ¬ run <+: s := by
  constructor
  · intro h q hq run hrun hfront
    have hlength := hrun.length_le_reach hq hfront
    rw [farthest?_eq_none h q hq] at hlength
    exact hrun.ne_nil (List.eq_nil_of_length_eq_zero (Nat.le_zero.mp hlength))
  · intro h
    cases hlongest : longest? s with
    | none => rfl
    | some found =>
      obtain ⟨q, n⟩ := found
      obtain ⟨hq, rfl, -⟩ := farthest?_eq_some hlongest
      have hfront := List.take_prefix (q.reach s) s
      exact absurd hfront (h q hq _ (matches_take_reach (longest?_pos hlongest)))

/-- The pattern that is picked for a text is the one that matches the longest run in
front of it. -/
theorem longest?_eq_some_iff :
    longest? s = some (p, n) ↔
      p ∈ all ∧ n ≤ s.length ∧ p.Matches (s.take n) ∧
        ∀ q ∈ all, ∀ run, q.Matches run → run <+: s → run.length ≤ n := by
  constructor
  · intro h
    obtain ⟨hp, rfl, hmax⟩ := farthest?_eq_some h
    exact ⟨hp, reach_le_length p s, matches_take_reach (longest?_pos h),
      fun q hq run hrun hfront => (hrun.length_le_reach hq hfront).trans (hmax q hq)⟩
  · rintro ⟨hp, hn, hmatches, hmax⟩
    have hpos : n ≠ 0 := by
      rintro rfl
      exact hmatches.ne_nil rfl
    have hfront := List.take_prefix n s
    cases hlongest : longest? s with
    | none => exact absurd hfront (longest?_eq_none_iff.mp hlongest p hp _ hmatches)
    | some found =>
      obtain ⟨q, m⟩ := found
      obtain ⟨hq, rfl, hmax'⟩ := farthest?_eq_some hlongest
      have hmatches' := matches_take_reach (longest?_pos hlongest)
      have hfront' := List.take_prefix (q.reach s) s
      -- each of the two runs is at least as long as the other
      have hle := hmax q hq _ hmatches' hfront'
      have hge := hmatches.length_le_reach hp hfront
      rw [List.length_take_of_le (reach_le_length q s)] at hle
      rw [List.length_take_of_le hn] at hge
      obtain rfl : n = q.reach s := by
        have := hmax' p hp
        omega
      rw [hmatches.unique hmatches' hp hq]

end Pattern

end TypedScript
