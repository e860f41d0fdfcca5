import TypedScript.Proofs.Derivation
import TypedScript.Proofs.Sequencing

/-!
# What parsers read

A parser reads a phrase if the tokens that it takes, all of them and in their order,
make up the phrase that its value stands for (`Parser.Reads`). Each parser of the
grammar reads the phrase it is named for, with one lemma for each rule over the parsers
that lie deeper. By induction on the levels of nesting this holds of the whole grammar
(`Grammar.parsers_read`), wherever a parser begins and however many levels are open.

The lemmas follow a parser from the tokens where it begins (`Parser.ReadsFrom`), as
what is looked ahead at decides what is taken.
-/

namespace TypedScript

/-- The position of the first token. -/
def startOf (ts : List Token) : Position :=
  (ts.head?.map (·.position)).getD .start

namespace Parser

variable {α β : Type}

/-- If the parser gives a value, the tokens that it has taken are related to it. -/
def Reads (p : Parser α) (R : List Token → α → Prop) : Prop :=
  ∀ c a c', p c = .ok a c' → ∃ used, c.tokens = used ++ c'.tokens ∧ R used a

/-- The same from given tokens on. -/
def ReadsFrom (ts : List Token) (p : Parser α) (R : List Token → α → Prop) : Prop :=
  ∀ depth a c, p ⟨ts, depth⟩ = .ok a c → ∃ used, ts = used ++ c.tokens ∧ R used a

theorem reads_iff {p : Parser α} {R : List Token → α → Prop} :
    Reads p R ↔ ∀ ts, ReadsFrom ts p R :=
  ⟨fun h ts depth => h ⟨ts, depth⟩, fun h c => h c.tokens c.depth⟩

theorem Reads.readsFrom {p : Parser α} {R : List Token → α → Prop} (h : Reads p R)
    (ts : List Token) : ReadsFrom ts p R :=
  reads_iff.mp h ts

theorem Reads.of_readsFrom {p : Parser α} {R : List Token → α → Prop}
    (h : ∀ ts, ReadsFrom ts p R) : Reads p R :=
  reads_iff.mpr h

theorem Reads.mono {p : Parser α} {R R' : List Token → α → Prop} (h : Reads p R)
    (himp : ∀ used a, R used a → R' used a) : Reads p R' := by
  intro c a c' hp
  obtain ⟨used, hts, hR⟩ := h c a c' hp
  exact ⟨used, hts, himp used a hR⟩

namespace ReadsFrom

variable {ts rest : List Token} {t : Token} {R : List Token → α → Prop}
  {Q : List Token → β → Prop}

theorem pure {a : α} (h : R [] a) : ReadsFrom ts (Pure.pure a) R := by
  intro depth b c hp
  cases hp
  exact ⟨[], rfl, h⟩

theorem throw (fault : ParseFault) : ReadsFrom ts (MonadExcept.throw fault : Parser α) R := by
  intro depth a c hp
  cases hp

theorem throw_bind (fault : ParseFault) (f : α → Parser β) :
    ReadsFrom ts ((MonadExcept.throw fault : Parser α) >>= f) Q := by
  intro depth b c hp
  cases hp

/-- What has been taken so far is the whole phrase. -/
theorem stop {used : List Token} {a : α} (h : R used a) :
    ReadsFrom ts (Pure.pure a : Parser α) fun us => R (used ++ us) :=
  pure ((List.append_nil used).symm ▸ h)

theorem bind {p : Parser α} {f : α → Parser β} (hp : ReadsFrom ts p R)
    (hf : ∀ used rest a, ts = used ++ rest → R used a →
      ReadsFrom rest (f a) fun us => Q (used ++ us)) : ReadsFrom ts (p >>= f) Q := by
  intro depth b c'' h
  obtain ⟨a, c', hpc, hfc⟩ := bind_eq_ok.mp h
  obtain ⟨used, hts, hR⟩ := hp depth a c' hpc
  -- the second parser begins with the tokens that the first one has left
  obtain ⟨us, hrest, hQ⟩ := hf used c'.tokens a hts hR c'.depth b c'' hfc
  exact ⟨used ++ us, by rw [List.append_assoc, ← hrest, hts], hQ⟩

/-- The last part of a phrase. -/
theorem map {p : Parser α} {g : α → β} (hp : ReadsFrom ts p R)
    (h : ∀ used rest a, ts = used ++ rest → R used a → Q used (g a)) :
    ReadsFrom ts (p >>= fun a => Pure.pure (g a)) Q :=
  hp.bind fun used rest a hts hR => stop (h used rest a hts hR)

theorem mono {p : Parser α} {R' : List Token → α → Prop} (hp : ReadsFrom ts p R)
    (h : ∀ used a, R used a → R' used a) : ReadsFrom ts p R' := by
  intro depth a c hpc
  obtain ⟨used, hts, hR⟩ := hp depth a c hpc
  exact ⟨used, hts, h used a hR⟩

/-- What goes on behind a longer beginning. -/
theorem goOn {p : Parser α} {used us : List Token}
    (h : ReadsFrom ts p fun more => R ((used ++ us) ++ more)) :
    ReadsFrom ts p fun more => R (used ++ (us ++ more)) :=
  h.mono fun more _ hR => List.append_assoc used us more ▸ hR

/-- The levels of nesting do not matter. -/
theorem nested {p : Parser α} (hp : ReadsFrom ts p R) (position : Position) :
    ReadsFrom ts (Parser.nested position p) R := by
  intro depth a c h
  obtain ⟨-, deeper, hpc, -⟩ := nested_eq_ok h
  exact hp (depth + 1) a ⟨c.tokens, deeper⟩ hpc

/-! ### Single tokens -/

theorem peek? {f : Option Token → Parser β} (h : ReadsFrom ts (f ts.head?) Q) :
    ReadsFrom ts (Parser.peek? >>= f) Q :=
  fun depth => h depth

theorem position {f : Position → Parser β} (h : ReadsFrom ts (f (startOf ts)) Q) :
    ReadsFrom ts (Parser.position >>= f) Q :=
  fun depth => h depth

theorem remaining {f : Nat → Parser β} (h : ReadsFrom ts (f ts.length) Q) :
    ReadsFrom ts (Parser.remaining >>= f) Q :=
  fun depth => h depth

theorem skip {f : Unit → Parser β} (h : ReadsFrom rest (f ()) fun us => Q (t :: us)) :
    ReadsFrom (t :: rest) (Parser.skip >>= f) Q := by
  intro depth b c hp
  obtain ⟨us, hrest, hQ⟩ := h depth b c hp
  exact ⟨t :: us, congrArg (t :: ·) hrest, hQ⟩

theorem next {f : Token → Parser β} (expected : String)
    (h : ∀ t rest, ts = t :: rest → ReadsFrom rest (f t) fun us => Q (t :: us)) :
    ReadsFrom ts (Parser.next expected >>= f) Q := by
  cases ts with
  | nil => exact fun depth b c hp => by cases hp
  | cons t rest => exact skip (f := fun _ => f t) (h t rest rfl)

theorem isSymbol_iff {sign : Symbol} : t.kind.isSymbol sign = true ↔ t.kind = .symbol sign := by
  unfold Token.Kind.isSymbol
  split
  · next s hkind => simp [hkind]
  · next hkind => simpa using hkind sign

theorem isKeyword_iff {word : Keyword} :
    t.kind.isKeyword word = true ↔ t.kind = .keyword word := by
  unfold Token.Kind.isKeyword
  split
  · next w hkind => simp [hkind]
  · next hkind => simpa using hkind word

/-- The symbol ahead stays where it is. -/
theorem sees {sign : Symbol} {f : Bool → Parser β}
    (hyes : ∀ t rest, ts = t :: rest → t.kind = .symbol sign → ReadsFrom ts (f true) Q)
    (hno : ReadsFrom ts (f false) Q) : ReadsFrom ts (Parser.sees sign >>= f) Q := by
  cases ts with
  | nil => exact hno
  | cons t rest =>
    have hsees : ∀ depth, (Parser.sees sign >>= f) ⟨t :: rest, depth⟩ =
        f (t.kind.isSymbol sign) ⟨t :: rest, depth⟩ := fun _ => rfl
    intro depth
    rw [hsees]
    cases hsign : t.kind.isSymbol sign with
    | true => exact hyes t rest rfl (isSymbol_iff.mp hsign) depth
    | false => exact hno depth

theorem seesWord {word : Keyword} {f : Bool → Parser β}
    (hyes : ∀ t rest, ts = t :: rest → t.kind = .keyword word → ReadsFrom ts (f true) Q)
    (hno : ReadsFrom ts (f false) Q) : ReadsFrom ts (Parser.seesWord word >>= f) Q := by
  cases ts with
  | nil => exact hno
  | cons t rest =>
    have hsees : ∀ depth, (Parser.seesWord word >>= f) ⟨t :: rest, depth⟩ =
        f (t.kind.isKeyword word) ⟨t :: rest, depth⟩ := fun _ => rfl
    intro depth
    rw [hsees]
    cases hword : t.kind.isKeyword word with
    | true => exact hyes t rest rfl (isKeyword_iff.mp hword) depth
    | false => exact hno depth

/-- The symbol ahead is taken, or it is another one. -/
theorem eat {sign : Symbol} {f : Bool → Parser β}
    (hyes : ∀ t rest, ts = t :: rest → t.kind = .symbol sign →
      ReadsFrom rest (f true) fun us => Q (t :: us))
    (hno : ReadsFrom ts (f false) Q) : ReadsFrom ts (Parser.eat sign >>= f) Q := by
  unfold Parser.eat
  rw [bind_assoc]
  refine sees (fun t rest hts hkind => ?_) hno
  cases hts
  exact skip (f := fun _ => f true) (hyes t rest rfl hkind)

theorem eatWord {word : Keyword} {f : Bool → Parser β}
    (hyes : ∀ t rest, ts = t :: rest → t.kind = .keyword word →
      ReadsFrom rest (f true) fun us => Q (t :: us))
    (hno : ReadsFrom ts (f false) Q) : ReadsFrom ts (Parser.eatWord word >>= f) Q := by
  unfold Parser.eatWord
  rw [bind_assoc]
  refine seesWord (fun t rest hts hkind => ?_) hno
  cases hts
  exact skip (f := fun _ => f true) (hyes t rest rfl hkind)

theorem expect {sign : Symbol} {f : Token → Parser β} (expected : String)
    (h : ∀ t rest, ts = t :: rest → t.kind = .symbol sign →
      ReadsFrom rest (f t) fun us => Q (t :: us)) :
    ReadsFrom ts (Parser.expect sign expected >>= f) Q := by
  unfold Parser.expect
  rw [bind_assoc]
  refine next expected fun t rest hts => ?_
  split
  · next hsign => exact h t rest hts (isSymbol_iff.mp hsign)
  · exact .throw_bind _ _

/-- How the parenthesis ahead goes on stays open, as each reading takes tokens of its own. -/
theorem seesFunctionType {f : Bool → Parser β} (hyes : ReadsFrom ts (f true) Q)
    (hno : ReadsFrom ts (f false) Q) : ReadsFrom ts (Grammar.seesFunctionType >>= f) Q := by
  intro depth
  show ∀ b c, f (Grammar.closesBeforeArrow 0 ts) ⟨ts, depth⟩ = .ok b c → _
  cases Grammar.closesBeforeArrow 0 ts with
  | true => exact hyes depth
  | false => exact hno depth

theorem expectWord {word : Keyword} {f : Token → Parser β}
    (h : ∀ t rest, ts = t :: rest → t.kind = .keyword word →
      ReadsFrom rest (f t) fun us => Q (t :: us)) :
    ReadsFrom ts (Parser.expectWord word >>= f) Q := by
  unfold Parser.expectWord
  rw [bind_assoc]
  refine next _ fun t rest hts => ?_
  split
  · next hword => exact h t rest hts (isKeyword_iff.mp hword)
  · exact .throw_bind _ _

theorem identifier {f : String × Position → Parser β}
    (h : ∀ t rest name, ts = t :: rest → t.kind = .identifier name →
      ReadsFrom rest (f (name, t.position)) fun us => Q (t :: us)) :
    ReadsFrom ts (Parser.identifier >>= f) Q := by
  unfold Parser.identifier
  rw [bind_assoc]
  refine next _ fun t rest hts => ?_
  split
  · next name hkind => exact h t rest name hts hkind
  · exact .throw_bind _ _

theorem propertyName {f : String × Position → Parser β}
    (h : ∀ t rest name, ts = t :: rest → t.property? = some name →
      ReadsFrom rest (f (name, t.position)) fun us => Q (t :: us)) :
    ReadsFrom ts (Parser.propertyName >>= f) Q := by
  unfold Parser.propertyName
  rw [bind_assoc]
  refine next _ fun t rest hts => ?_
  have hname := h t rest
  unfold Token.property? at hname
  split
  · next name hkind => exact hname name hts (by rw [hkind])
  · next name hkind => exact hname name hts (by rw [hkind])
  · next hidentifier htext =>
    -- neither a name nor a text: only a reserved word may stand here
    split
    · next hreserved =>
      refine hname t.lexeme hts ?_
      split
      · next name hkind => exact absurd hkind (hidentifier name)
      · next name hkind => exact absurd hkind (htext name)
      · exact if_pos hreserved
    · exact .throw_bind _ _

end ReadsFrom

/-! ### Forms -/

theorem mark_reads (sign : Symbol) : Reads (eat sign) (Derives (.mark sign)) := by
  refine .of_readsFrom fun ts => .sees (fun t rest hts hkind => ?_) (.pure .unmarked)
  subst hts
  exact .skip (.pure (.marked hkind))

section Forms

variable {part : Phrase} {item : Parser part.Tree} (hitem : Reads item (Derives part))

include hitem

theorem itemsUntil_reads (closing : Symbol) (bound : Nat) :
    Reads (itemsUntil closing item bound) (Derives (.list closing part)) := by
  induction bound with
  | zero => exact .of_readsFrom fun _ => .throw _
  | succ bound ih =>
    refine .of_readsFrom fun ts => .eat (fun t _ _ hkind => .pure (.closed hkind)) ?_
    refine (hitem.readsFrom ts).bind fun used rest first _ hfirst => .next _ fun t rest _ => ?_
    split
    · next hcomma =>
      exact (ih.readsFrom rest).map fun us _ l _ hl =>
        .listed hfirst (ReadsFrom.isSymbol_iff.mp hcomma) hl
    · split
      · next hclosing =>
        exact .pure (.lastOfList hfirst (ReadsFrom.isSymbol_iff.mp hclosing))
      · exact .throw _

theorem commaSeparated_reads (closing : Symbol) :
    Reads (commaSeparated closing item) (Derives (.list closing part)) :=
  .of_readsFrom fun ts => .remaining ((itemsUntil_reads hitem closing _).readsFrom ts)

theorem separatedBy_reads (separator : Symbol) :
    Reads (separatedBy separator item) (Derives (.chain separator part)) := by
  -- the members behind the first one are read after it, but the chain is derived with it
  have hafter : ∀ bound {used first}, Derives part used first →
      Reads (itemsAfter separator item bound) fun us l =>
        Derives (.chain separator part) (used ++ us) (first :: l) := by
    intro bound
    induction bound with
    | zero =>
      intro used first hfirst
      refine .of_readsFrom fun ts => .pure ?_
      rw [List.append_nil]
      exact .lastOfChain hfirst
    | succ bound ih =>
      intro used first hfirst
      refine .of_readsFrom fun ts => .eat (fun t rest _ hkind => ?_) (.pure ?_)
      · exact (hitem.readsFrom rest).bind fun used' rest second _ hsecond =>
          ((ih hsecond).readsFrom rest).map fun us _ l _ hl => .chained hfirst hkind hl
      · rw [List.append_nil]
        exact .lastOfChain hfirst
  exact .of_readsFrom fun ts => (hitem.readsFrom ts).bind fun used rest first _ hfirst =>
    .remaining (((hafter _ hfirst).readsFrom rest).map fun us _ l _ hl => hl)

end Forms

end Parser

end TypedScript
