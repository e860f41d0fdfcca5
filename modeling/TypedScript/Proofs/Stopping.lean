import TypedScript.Proofs.Reading

/-!
# Runs that stop in front of the end marker

A parser is run on tokens that end with their only end marker, and a second time with any
other tokens behind the marker (`Parser.StopsFrom`). Both runs take the same tokens and
give the same answer. If this is a value, the marker is among the tokens left over. If it
is a fault, one of the tokens is to blame for it (`ParseFault.IsBlamedOn`).

How many rounds a loop may take depends on how many tokens there are. As the second run
allows the loops more rounds than the first one, it also says that no loop ends for want
of rounds. Each item of a loop has to take a token for that (`Parser.Consumes`).
-/

namespace TypedScript

/-- The last token is an end marker, and no other token is. -/
inductive EndsOnce : List Token → Prop
  | last {t : Token} : t.kind.isEnd = true → EndsOnce [t]
  | cons {t : Token} {rest : List Token} : t.kind.isEnd = false → EndsOnce rest →
      EndsOnce (t :: rest)

/-- The fault is put down to the token: it stands there, and only the end marker is where
the input is said to end. A level of nesting may be refused at the marker as well. -/
structure ParseFault.IsBlamedOn (fault : ParseFault) (t : Token) : Prop where
  position : fault.position = t.position
  isEnd : ∀ expected, fault.cause = .endOfInput expected → t.kind.isEnd = true
  atEnd : t.kind.isEnd = true →
    (∃ expected, fault.cause = .endOfInput expected) ∨ fault.cause = .tooDeeplyNested

/-- Some token is to blame for the fault. -/
def Blames (all : List Token) (fault : ParseFault) : Prop :=
  ∃ t ∈ all, ParseFault.IsBlamedOn fault t

/-- What is left of a list of tokens that ends once, with its end marker. -/
structure IsLeft (all ts : List Token) : Prop where
  endsOnce : EndsOnce ts
  suffix : ts <:+ all

/-- A token that is no end marker stands there. -/
def StandsInside (all : List Token) (position : Position) : Prop :=
  ∃ t ∈ all, t.kind.isEnd = false ∧ t.position = position

variable {all ts rest : List Token} {t : Token}

theorem isEnd_eq_true_iff : t.kind.isEnd = true ↔ t.kind = .endOfInput := by
  unfold Token.Kind.isEnd
  split
  · next hkind => simp [hkind]
  · next hkind => simpa using hkind

theorem endsOnce_iff {tokens : List Token} :
    EndsOnce tokens ↔ ∃ front last, tokens = front ++ [last] ∧ last.kind = .endOfInput ∧
      ∀ t ∈ front, t.kind ≠ .endOfInput := by
  constructor
  · intro h
    induction h with
    | last hend => exact ⟨[], _, rfl, isEnd_eq_true_iff.mp hend, nofun⟩
    | @cons t _ hend _ ih =>
      obtain ⟨front, last, rfl, hlast, hfront⟩ := ih
      refine ⟨t :: front, last, rfl, hlast, fun other hother => ?_⟩
      rcases List.mem_cons.mp hother with rfl | hother
      · exact fun hkind => Bool.eq_false_iff.mp hend (isEnd_eq_true_iff.mpr hkind)
      · exact hfront other hother
  · rintro ⟨front, last, rfl, hlast, hfront⟩
    induction front with
    | nil => exact .last (isEnd_eq_true_iff.mpr hlast)
    | cons t front ih =>
      refine .cons (Bool.eq_false_iff.mpr fun hend => ?_) (ih fun other hother => ?_)
      · exact hfront t List.mem_cons_self (isEnd_eq_true_iff.mp hend)
      · exact hfront other (List.mem_cons_of_mem t hother)

namespace IsLeft

theorem cases_on (h : IsLeft all ts) : ∃ t rest, ts = t :: rest ∧ t ∈ all ∧
    (t.kind.isEnd = true ∧ rest = [] ∨ t.kind.isEnd = false ∧ IsLeft all rest) := by
  obtain ⟨hends, hsuffix⟩ := h
  cases hends with
  | @last t hend => exact ⟨t, [], rfl, hsuffix.mem List.mem_cons_self, .inl ⟨hend, rfl⟩⟩
  | @cons t rest hend hrest =>
    refine ⟨t, rest, rfl, hsuffix.mem List.mem_cons_self, .inr ⟨hend, hrest, ?_⟩⟩
    exact (List.suffix_cons t rest).trans hsuffix

/-- Behind a token that is no end marker there are others. -/
theorem tail (h : IsLeft all (t :: rest)) (hend : t.kind.isEnd = false) : IsLeft all rest := by
  obtain ⟨_, _, heq, -, ⟨htrue, -⟩ | ⟨-, hrest⟩⟩ := h.cases_on
  · cases heq
    rw [hend] at htrue
    cases htrue
  · cases heq
    exact hrest

theorem length_pos (h : IsLeft all ts) : 0 < ts.length := by
  obtain ⟨t, rest, rfl, -⟩ := h.cases_on
  exact Nat.succ_pos _

end IsLeft

theorem blames_unexpected (ht : t ∈ all) (expected : String) :
    Blames all (t.unexpected expected) := by
  refine ⟨t, ht, ?_⟩
  unfold Token.unexpected
  split
  · next hend => exact ⟨rfl, fun _ _ => hend, fun _ => .inl ⟨expected, rfl⟩⟩
  · next hend => exact ⟨rfl, nofun, fun h => absurd h hend⟩

theorem blames_tooDeeplyNested (ht : t ∈ all) : Blames all ⟨.tooDeeplyNested, t.position⟩ :=
  ⟨t, ht, rfl, nofun, fun _ => .inr rfl⟩

/-- A fault that has nothing to do with the end of the input stands at another token. -/
theorem blames_of_stands {cause : ParseCause} {position : Position}
    (h : StandsInside all position) (hcause : ∀ expected, cause ≠ .endOfInput expected) :
    Blames all ⟨cause, position⟩ := by
  obtain ⟨t, ht, hend, rfl⟩ := h
  refine ⟨t, ht, rfl, fun expected heq => absurd heq (hcause expected), fun htrue => ?_⟩
  rw [hend] at htrue
  cases htrue

namespace Parser

variable {α β : Type}

/-- Each value takes a token. -/
def Consumes (p : Parser α) : Prop :=
  ∀ c a c', p c = .ok a c' → c'.tokens.length < c.tokens.length

theorem Reads.consumes {p : Parser α} {R : List Token → α → Prop} (h : Reads p R)
    (hR : ∀ used a, R used a → used ≠ []) : Consumes p := by
  intro c a c' hp
  obtain ⟨used, htokens, hused⟩ := h c a c' hp
  have hpos := List.length_pos_iff.mpr (hR used a hused)
  rw [htokens, List.length_append]
  omega

variable (all extra : List Token)

/-- A run that stops in front of the end marker, beside the run on more tokens. -/
inductive StopsWith (ts : List Token) (Q : α → Prop) :
    EStateM.Result ParseFault Cursor α → EStateM.Result ParseFault Cursor α → Prop
  | ok {a : α} {rest : List Token} {depth : Nat} : EndsOnce rest → rest <:+ ts → Q a →
      StopsWith ts Q (.ok a ⟨rest, depth⟩) (.ok a ⟨rest ++ extra, depth⟩)
  | error {fault : ParseFault} {rest : List Token} {depth : Nat} : Blames all fault →
      StopsWith ts Q (.error fault ⟨rest, depth⟩) (.error fault ⟨rest ++ extra, depth⟩)

/-- On what is left of the tokens `p` stops in front of the end marker, and `q` does the
same if there are more tokens. -/
def StopsFrom (ts : List Token) (p q : Parser α) (Q : α → Prop) : Prop :=
  IsLeft all ts → ∀ depth, StopsWith all extra ts Q (p ⟨ts, depth⟩) (q ⟨ts ++ extra, depth⟩)

/-- The parser stops in front of the end marker, whatever is left and whatever stands
behind the marker. -/
def Stops (p : Parser α) (Q : α → Prop) : Prop :=
  ∀ ts, StopsFrom all extra ts p p Q

variable {all extra} {p q : Parser α} {f f' : α → Parser β} {Q Q' : α → Prop} {R : β → Prop}

namespace StopsFrom

theorem pure {a : α} (h : Q a) : StopsFrom all extra ts (Pure.pure a) (Pure.pure a) Q :=
  fun hts _ => .ok hts.endsOnce (List.suffix_refl ts) h

theorem throw {fault : ParseFault} (h : Blames all fault) :
    StopsFrom all extra ts (MonadExcept.throw fault : Parser α) (MonadExcept.throw fault) Q :=
  fun _ _ => .error h

theorem throw_bind {fault : ParseFault} (h : Blames all fault) :
    StopsFrom all extra ts ((MonadExcept.throw fault : Parser α) >>= f)
      ((MonadExcept.throw fault : Parser α) >>= f') R :=
  fun _ _ => .error h

/-- The parser behind another one begins with the tokens that are left. -/
theorem bind_of_run (h : StopsFrom all extra ts p q Q)
    (hf : ∀ depth a c, p ⟨ts, depth⟩ = .ok a c → c.tokens <:+ ts → Q a →
      StopsFrom all extra c.tokens (f a) (f' a) R) :
    StopsFrom all extra ts (p >>= f) (q >>= f') R := by
  intro hts depth
  rw [bind_run, bind_run]
  have hrun := h hts depth
  have hgoOn := hf depth
  generalize p ⟨ts, depth⟩ = result at hrun hgoOn
  generalize q ⟨ts ++ extra, depth⟩ = result' at hrun
  cases hrun with
  | @ok a rest deeper hends hsuffix ha =>
    have hrest : IsLeft all rest := ⟨hends, hsuffix.trans hts.suffix⟩
    have hbehind := hgoOn a ⟨rest, deeper⟩ rfl hsuffix ha hrest deeper
    show StopsWith all extra ts R (f a ⟨rest, deeper⟩) (f' a ⟨rest ++ extra, deeper⟩)
    generalize f a ⟨rest, deeper⟩ = last at hbehind
    generalize f' a ⟨rest ++ extra, deeper⟩ = last' at hbehind
    cases hbehind with
    | ok hends' hsuffix' hb => exact .ok hends' (hsuffix'.trans hsuffix) hb
    | error hblames => exact .error hblames
  | error hblames => exact .error hblames

theorem bind (h : StopsFrom all extra ts p q Q)
    (hf : ∀ rest a, rest <:+ ts → Q a → StopsFrom all extra rest (f a) (f' a) R) :
    StopsFrom all extra ts (p >>= f) (q >>= f') R :=
  h.bind_of_run fun _ a c _ hsuffix ha => hf c.tokens a hsuffix ha

/-- Behind a parser that takes a token there are fewer of them. -/
theorem bind_consuming (h : StopsFrom all extra ts p q Q) (hp : Consumes p)
    (hf : ∀ rest a, rest.length < ts.length → Q a → StopsFrom all extra rest (f a) (f' a) R) :
    StopsFrom all extra ts (p >>= f) (q >>= f') R :=
  h.bind_of_run fun _ a c hrun _ ha => hf c.tokens a (hp _ a c hrun) ha

/-- The last part of a rule. -/
theorem map {g : α → β} (h : StopsFrom all extra ts p q Q) (hg : ∀ a, Q a → R (g a)) :
    StopsFrom all extra ts (p >>= fun a => Pure.pure (g a)) (q >>= fun a => Pure.pure (g a)) R :=
  h.bind fun _ a _ ha => pure (hg a ha)

/-- The level is opened at a token, which is blamed if there is none left. -/
theorem nested (h : StopsFrom all extra ts p q Q) {position : Position}
    (hposition : ∃ t ∈ all, t.position = position) :
    StopsFrom all extra ts (Parser.nested position p) (Parser.nested position q) Q := by
  intro hts depth
  unfold Parser.nested
  dsimp only
  split
  · obtain ⟨t, ht, rfl⟩ := hposition
    exact .error (blames_tooDeeplyNested ht)
  · have hrun := h hts (depth + 1)
    generalize p ⟨ts, depth + 1⟩ = result at hrun
    generalize q ⟨ts ++ extra, depth + 1⟩ = result' at hrun
    cases hrun with
    | ok hends hsuffix ha => exact .ok hends hsuffix ha
    | error hblames => exact .error hblames

/-! ### Single tokens -/

/-- There always is a next token. -/
theorem peek? {f f' : Option Token → Parser β}
    (h : ∀ t rest, ts = t :: rest → t ∈ all →
      StopsFrom all extra ts (f (some t)) (f' (some t)) R) :
    StopsFrom all extra ts (Parser.peek? >>= f) (Parser.peek? >>= f') R := by
  intro hts depth
  obtain ⟨t, rest, rfl, ht, -⟩ := hts.cases_on
  exact h t rest rfl ht hts depth

theorem position {f f' : Position → Parser β}
    (h : ∀ t ∈ all, StopsFrom all extra ts (f t.position) (f' t.position) R) :
    StopsFrom all extra ts (Parser.position >>= f) (Parser.position >>= f') R := by
  intro hts depth
  obtain ⟨t, rest, rfl, ht, -⟩ := hts.cases_on
  exact h t ht hts depth

/-- More tokens are counted in the second run. -/
theorem remaining {f f' : Nat → Parser β}
    (h : StopsFrom all extra ts (f ts.length) (f' (ts ++ extra).length) R) :
    StopsFrom all extra ts (Parser.remaining >>= f) (Parser.remaining >>= f') R :=
  fun hts depth => h hts depth

/-- The end marker itself is never passed over. -/
theorem skip {f g : Unit → Parser β} (hend : t.kind.isEnd = false)
    (h : StopsFrom all extra rest (f ()) (g ()) R) :
    StopsFrom all extra (t :: rest) (Parser.skip >>= f) (Parser.skip >>= g) R := by
  intro hts depth
  have hrun := h (hts.tail hend) depth
  show StopsWith all extra (t :: rest) R (f () ⟨rest, depth⟩) (g () ⟨rest ++ extra, depth⟩)
  generalize f () ⟨rest, depth⟩ = result at hrun
  generalize g () ⟨rest ++ extra, depth⟩ = result' at hrun
  cases hrun with
  | ok hends hsuffix ha => exact .ok hends (hsuffix.trans (List.suffix_cons t rest)) ha
  | error hblames => exact .error hblames

/-- The end marker is only taken if the run fails at once. -/
theorem next {f f' : Token → Parser β} (expected : String)
    (h : ∀ t rest, ts = t :: rest → t ∈ all → t.kind.isEnd = false →
      StopsFrom all extra rest (f t) (f' t) R)
    (hend : ∀ t ∈ all, t.kind = .endOfInput → ∀ depth,
      StopsWith all extra [t] R (f t ⟨[], depth⟩) (f' t ⟨extra, depth⟩)) :
    StopsFrom all extra ts (Parser.next expected >>= f) (Parser.next expected >>= f') R := by
  intro hts depth
  obtain ⟨t, rest, rfl, ht, ⟨hmarker, rfl⟩ | ⟨hother, -⟩⟩ := hts.cases_on
  · exact hend t ht (isEnd_eq_true_iff.mp hmarker) depth
  · exact skip (f := fun _ => f t) (g := fun _ => f' t) hother (h t rest rfl ht hother) hts depth

theorem isEnd_of_symbol {sign : Symbol} (h : t.kind = .symbol sign) : t.kind.isEnd = false := by
  rw [h]
  rfl

theorem isEnd_of_keyword {word : Keyword} (h : t.kind = .keyword word) :
    t.kind.isEnd = false := by
  rw [h]
  rfl

theorem isEnd_of_identifier {name : String} (h : t.kind = .identifier name) :
    t.kind.isEnd = false := by
  rw [h]
  rfl

theorem sees {sign : Symbol} {f f' : Bool → Parser β}
    (h : ∀ t rest, ts = t :: rest →
      StopsFrom all extra ts (f (t.kind.isSymbol sign)) (f' (t.kind.isSymbol sign)) R) :
    StopsFrom all extra ts (Parser.sees sign >>= f) (Parser.sees sign >>= f') R := by
  intro hts depth
  obtain ⟨t, rest, rfl, -⟩ := hts.cases_on
  exact h t rest rfl hts depth

theorem seesWord {word : Keyword} {f f' : Bool → Parser β}
    (h : ∀ t rest, ts = t :: rest →
      StopsFrom all extra ts (f (t.kind.isKeyword word)) (f' (t.kind.isKeyword word)) R) :
    StopsFrom all extra ts (Parser.seesWord word >>= f) (Parser.seesWord word >>= f') R := by
  intro hts depth
  obtain ⟨t, rest, rfl, -⟩ := hts.cases_on
  exact h t rest rfl hts depth

theorem eat {sign : Symbol} {f f' : Bool → Parser β}
    (hyes : ∀ t rest, ts = t :: rest → StopsFrom all extra rest (f true) (f' true) R)
    (hno : StopsFrom all extra ts (f false) (f' false) R) :
    StopsFrom all extra ts (Parser.eat sign >>= f) (Parser.eat sign >>= f') R := by
  unfold Parser.eat
  rw [bind_assoc, bind_assoc]
  refine sees fun t rest hts => ?_
  cases hsign : t.kind.isSymbol sign with
  | true =>
    subst hts
    exact skip (f := fun _ => f true) (g := fun _ => f' true)
      (isEnd_of_symbol (ReadsFrom.isSymbol_iff.mp hsign)) (hyes t rest rfl)
  | false => exact hno

theorem mark (sign : Symbol) :
    StopsFrom all extra ts (Parser.eat sign) (Parser.eat sign) fun _ => True := by
  rw [← bind_pure (Parser.eat sign)]
  exact eat (fun _ _ _ => pure trivial) (pure trivial)

theorem eatWord {word : Keyword} {f f' : Bool → Parser β}
    (hyes : ∀ t rest, ts = t :: rest → StopsFrom all extra rest (f true) (f' true) R)
    (hno : StopsFrom all extra ts (f false) (f' false) R) :
    StopsFrom all extra ts (Parser.eatWord word >>= f) (Parser.eatWord word >>= f') R := by
  unfold Parser.eatWord
  rw [bind_assoc, bind_assoc]
  refine seesWord fun t rest hts => ?_
  cases hword : t.kind.isKeyword word with
  | true =>
    subst hts
    exact skip (f := fun _ => f true) (g := fun _ => f' true)
      (isEnd_of_keyword (ReadsFrom.isKeyword_iff.mp hword)) (hyes t rest rfl)
  | false => exact hno

theorem expect {sign : Symbol} {f f' : Token → Parser β} (expected : String)
    (h : ∀ t rest, ts = t :: rest → StandsInside all t.position →
      StopsFrom all extra rest (f t) (f' t) R) :
    StopsFrom all extra ts (Parser.expect sign expected >>= f)
      (Parser.expect sign expected >>= f') R := by
  unfold Parser.expect
  rw [bind_assoc, bind_assoc]
  refine next expected (fun t rest hts ht hend => ?_) fun t ht hkind depth => ?_
  · split
    · exact h t rest hts ⟨t, ht, hend, rfl⟩
    · exact throw_bind (blames_unexpected ht expected)
  · rw [hkind]
    exact .error (blames_unexpected ht _)

theorem expectWord {word : Keyword} {f f' : Token → Parser β}
    (h : ∀ t rest, ts = t :: rest → StandsInside all t.position →
      StopsFrom all extra rest (f t) (f' t) R) :
    StopsFrom all extra ts (Parser.expectWord word >>= f) (Parser.expectWord word >>= f') R := by
  unfold Parser.expectWord
  rw [bind_assoc, bind_assoc]
  refine next _ (fun t rest hts ht hend => ?_) fun t ht hkind depth => ?_
  · split
    · exact h t rest hts ⟨t, ht, hend, rfl⟩
    · exact throw_bind (blames_unexpected ht _)
  · rw [hkind]
    exact .error (blames_unexpected ht _)

theorem identifier {f f' : String × Position → Parser β}
    (h : ∀ t rest name, ts = t :: rest → StandsInside all t.position →
      StopsFrom all extra rest (f (name, t.position)) (f' (name, t.position)) R) :
    StopsFrom all extra ts (Parser.identifier >>= f) (Parser.identifier >>= f') R := by
  unfold Parser.identifier
  rw [bind_assoc, bind_assoc]
  refine next _ (fun t rest hts ht hend => ?_) fun t ht hkind depth => ?_
  · split
    · exact h t rest _ hts ⟨t, ht, hend, rfl⟩
    · exact throw_bind (blames_unexpected ht _)
  · rw [hkind]
    exact .error (blames_unexpected ht _)

theorem propertyName {f f' : String × Position → Parser β}
    (h : ∀ t rest name, ts = t :: rest → StandsInside all t.position →
      StopsFrom all extra rest (f (name, t.position)) (f' (name, t.position)) R) :
    StopsFrom all extra ts (Parser.propertyName >>= f) (Parser.propertyName >>= f') R := by
  unfold Parser.propertyName
  rw [bind_assoc, bind_assoc]
  refine next _ (fun t rest hts ht hend => ?_) fun t ht hkind depth => ?_
  · have hname := fun name => h t rest name hts ⟨t, ht, hend, rfl⟩
    split
    · exact hname _
    · exact hname _
    · split
      · exact hname _
      · exact throw_bind (blames_unexpected ht _)
  · rw [hkind]
    exact .error (blames_unexpected ht _)

theorem outOfLevels : StopsFrom all extra ts (Parser.outOfLevels : Parser α) Parser.outOfLevels Q :=
  position fun _ ht => throw (blames_tooDeeplyNested ht)

end StopsFrom

/-! ### Rows of items -/

section Rows

variable {item : Parser α} (hitem : Stops all extra item Q)

include hitem

/-- With more rounds than there are tokens it does not matter how many there are. -/
theorem itemsUntil_stops (hconsumes : Consumes item) (closing : Symbol) (bound : Nat) :
    ∀ bound' ts, ts.length < bound → ts.length < bound' →
      StopsFrom all extra ts (itemsUntil closing item bound) (itemsUntil closing item bound')
        fun _ => True := by
  induction bound with
  | zero => exact fun _ _ hbound => absurd hbound (Nat.not_lt_zero _)
  | succ bound ih =>
    intro bound' ts hbound hbound'
    cases bound' with
    | zero => exact absurd hbound' (Nat.not_lt_zero _)
    | succ bound' =>
      refine .eat (fun _ _ _ => .pure trivial) ?_
      refine (hitem ts).bind_consuming hconsumes fun rest first hrest _ => ?_
      refine .next _ (fun t left hleft ht _ => ?_) fun t ht hkind depth => ?_
      · subst hleft
        simp only [List.length_cons] at hrest
        split
        · exact (ih bound' left (by omega) (by omega)).map fun _ _ => trivial
        · split
          · exact .pure trivial
          · exact .throw (blames_unexpected ht _)
      · rw [hkind]
        exact .error (blames_unexpected ht _)

theorem commaSeparated_stops (hconsumes : Consumes item) (closing : Symbol) :
    Stops all extra (commaSeparated closing item) fun _ => True :=
  fun ts => .remaining <| itemsUntil_stops hitem hconsumes closing _ _ ts (Nat.lt_succ_self _)
    (by rw [List.length_append]; omega)

theorem itemsAfter_stops (separator : Symbol) (bound : Nat) :
    ∀ bound' ts, ts.length ≤ bound → ts.length ≤ bound' →
      StopsFrom all extra ts (itemsAfter separator item bound) (itemsAfter separator item bound')
        fun _ => True := by
  induction bound with
  | zero => exact fun _ ts hbound _ hts => absurd hts.length_pos (by omega)
  | succ bound ih =>
    intro bound' ts hbound hbound'
    cases bound' with
    | zero => exact fun hts => absurd hts.length_pos (by omega)
    | succ bound' =>
      refine .eat (fun t rest hts => ?_) (.pure trivial)
      subst hts
      simp only [List.length_cons] at hbound hbound'
      refine (hitem rest).bind fun left _ hsuffix _ => ?_
      have hleft := hsuffix.length_le
      exact (ih bound' left (by omega) (by omega)).map fun _ _ => trivial

theorem separatedBy_stops (separator : Symbol) :
    Stops all extra (separatedBy separator item) fun _ => True :=
  fun ts => (hitem ts).bind fun rest _ _ _ => .remaining <|
    (itemsAfter_stops hitem separator _ _ rest (Nat.le_refl _)
      (by rw [List.length_append]; omega)).map fun _ _ => trivial

end Rows

end Parser

end TypedScript
