import TypedScript.Grammar.Statements
import TypedScript.Proofs.Sequencing

/-!
# Levels that parsers leave

A parser may open `maxNesting` levels inside each other. How many of them are left is what
bounds the values of a parser, so the conditions on these values are stated for each number
of levels: with so many levels left, all values satisfy the condition, and as many levels
are left behind the parser (`Parser.YieldsAt`). A parser one level deeper is read with one
level less, and without a level left it has no value at all.
-/

namespace TypedScript

namespace Parser

variable {α β : Type}

/-- With so many levels left, all values of a parser satisfy a condition, and as many levels
are left behind it. -/
def YieldsAt (levels : Nat) (p : Parser α) (P : α → Prop) : Prop :=
  ∀ c a c', c.depth + levels = maxNesting → p c = .ok a c' → c'.depth = c.depth ∧ P a

namespace YieldsAt

variable {levels : Nat} {P : α → Prop} {Q : β → Prop}

theorem pure {a : α} (h : P a) : YieldsAt levels (Pure.pure a) P := by
  intro c b c' _ heq
  cases heq
  exact ⟨rfl, h⟩

theorem throw (fault : ParseFault) :
    YieldsAt levels (MonadExcept.throw fault : Parser α) P := by
  intro c a c' _ h
  cases h

theorem bind {p : Parser α} {f : α → Parser β} (hp : YieldsAt levels p P)
    (hf : ∀ a, P a → YieldsAt levels (f a) Q) : YieldsAt levels (p >>= f) Q := by
  intro c b c'' hlevels h
  obtain ⟨a, c', hpc, hfc⟩ := bind_eq_ok.mp h
  obtain ⟨hdepth, ha⟩ := hp c a c' hlevels hpc
  -- the second parser starts with the levels that the first one has left, which are all of them
  obtain ⟨hdepth', hb⟩ := hf a ha c' b c'' (by rw [hdepth, hlevels]) hfc
  exact ⟨hdepth'.trans hdepth, hb⟩

theorem mono {P' : α → Prop} {p : Parser α} (hp : YieldsAt levels p P)
    (himp : ∀ a, P a → P' a) : YieldsAt levels p P' :=
  fun c a c' hlevels h => (hp c a c' hlevels h).imp_right (himp a)

/-- What comes first does not matter if it closes the levels that it opens. -/
theorem after {p : Parser α} {f : α → Parser β} (hp : YieldsAt levels p fun _ => True)
    (hf : ∀ a, YieldsAt levels (f a) Q) : YieldsAt levels (p >>= f) Q :=
  hp.bind fun a _ => hf a

/-- Without a level left, no level is opened. -/
theorem nested_zero (position : Position) (p : Parser α) :
    YieldsAt 0 (Parser.nested position p) P := by
  intro c a c' hlevels h
  obtain ⟨hdepth, -⟩ := nested_eq_ok h
  omega

theorem nested {p : Parser α} (hp : YieldsAt levels p P) (position : Position) :
    YieldsAt (levels + 1) (Parser.nested position p) P := by
  intro c a c' hlevels h
  obtain ⟨-, deeper, hpc, hclosed⟩ := nested_eq_ok h
  -- the level that is opened here is one of those that are left
  have hlevels' : c.depth + 1 + levels = maxNesting := by omega
  obtain ⟨hdepth, ha⟩ := hp ⟨c.tokens, c.depth + 1⟩ a _ hlevels' hpc
  dsimp only at hdepth
  exact ⟨by omega, ha⟩

theorem throw_bind (fault : ParseFault) (f : α → Parser β) :
    YieldsAt levels ((MonadExcept.throw fault : Parser α) >>= f) Q :=
  .bind (.throw (P := fun _ => False) fault) fun _ h => h.elim

/-! ## Single tokens -/

theorem get : YieldsAt levels (MonadState.get : Parser Cursor) fun _ => True := by
  intro c a c' _ h
  cases h
  exact ⟨rfl, trivial⟩

theorem peek? : YieldsAt levels Parser.peek? fun _ => True :=
  .after .get fun _ => .pure trivial

theorem position : YieldsAt levels Parser.position fun _ => True :=
  .after .peek? fun _ => .pure trivial

theorem remaining : YieldsAt levels Parser.remaining fun _ => True :=
  .after .get fun _ => .pure trivial

theorem skip : YieldsAt levels Parser.skip fun _ => True := by
  intro c a c' _ h
  cases h
  exact ⟨rfl, trivial⟩

theorem outOfLevels : YieldsAt levels (Parser.outOfLevels : Parser α) P :=
  .after .position fun _ => .throw _

theorem next (expected : String) : YieldsAt levels (Parser.next expected) fun _ => True := by
  refine .after .peek? fun t? => ?_
  split
  · exact .throw _
  · exact .after .skip fun _ => .pure trivial

theorem sees (sign : Symbol) : YieldsAt levels (Parser.sees sign) fun _ => True :=
  .after .peek? fun _ => .pure trivial

theorem seesWord (word : Keyword) : YieldsAt levels (Parser.seesWord word) fun _ => True :=
  .after .peek? fun _ => .pure trivial

theorem eat (sign : Symbol) : YieldsAt levels (Parser.eat sign) fun _ => True := by
  refine .after (.sees sign) fun sees => ?_
  split
  · exact .after .skip fun _ => .pure trivial
  · exact .pure trivial

theorem eatWord (word : Keyword) : YieldsAt levels (Parser.eatWord word) fun _ => True := by
  refine .after (.seesWord word) fun sees => ?_
  split
  · exact .after .skip fun _ => .pure trivial
  · exact .pure trivial

theorem expect (sign : Symbol) (expected : String) :
    YieldsAt levels (Parser.expect sign expected) fun _ => True := by
  refine .after (.next expected) fun t => ?_
  split
  · exact .pure trivial
  · exact .throw _

theorem expectWord (word : Keyword) :
    YieldsAt levels (Parser.expectWord word) fun _ => True := by
  refine .after (.next _) fun t => ?_
  split
  · exact .pure trivial
  · exact .throw _

theorem identifier : YieldsAt levels Parser.identifier fun _ => True := by
  refine .after (.next _) fun t => ?_
  split
  · exact .pure trivial
  · exact .throw _

theorem propertyName : YieldsAt levels Parser.propertyName fun _ => True := by
  refine .after (.next _) fun t => ?_
  split
  · exact .pure trivial
  · exact .pure trivial
  · split
    · exact .pure trivial
    · exact .throw _

end YieldsAt

/-! ## Sequences of items -/

section Items

variable {levels : Nat} {P : α → Prop} {item : Parser α} (hitem : YieldsAt levels item P)

include hitem

theorem itemsUntil_yieldsAt (closing : Symbol) (bound : Nat) :
    YieldsAt levels (itemsUntil closing item bound) fun l => ∀ a ∈ l, P a := by
  induction bound with
  | zero => exact .throw _
  | succ bound ih =>
    refine .after (.eat _) fun closes => ?_
    split
    · exact .pure fun _ h => absurd h List.not_mem_nil
    · refine hitem.bind fun first hfirst => .after (.next _) fun t => ?_
      split
      · exact ih.bind fun rest hrest => .pure (List.forall_mem_cons.mpr ⟨hfirst, hrest⟩)
      · split
        · exact .pure fun a ha => List.mem_singleton.mp ha ▸ hfirst
        · exact .throw _

theorem commaSeparated_yieldsAt (closing : Symbol) :
    YieldsAt levels (commaSeparated closing item) fun l => ∀ a ∈ l, P a :=
  .after .remaining fun _ => itemsUntil_yieldsAt hitem closing _

theorem itemsAfter_yieldsAt (separator : Symbol) (bound : Nat) :
    YieldsAt levels (itemsAfter separator item bound) fun l => ∀ a ∈ l, P a := by
  induction bound with
  | zero => exact .pure fun _ h => absurd h List.not_mem_nil
  | succ bound ih =>
    refine .after (.eat _) fun goesOn => ?_
    split
    · exact hitem.bind fun first hfirst => ih.bind fun rest hrest =>
        .pure (List.forall_mem_cons.mpr ⟨hfirst, hrest⟩)
    · exact .pure fun _ h => absurd h List.not_mem_nil

theorem separatedBy_yieldsAt (separator : Symbol) :
    YieldsAt levels (separatedBy separator item) fun l => ∀ a ∈ l, P a :=
  hitem.bind fun _ hfirst => .after .remaining fun _ =>
    (itemsAfter_yieldsAt hitem separator _).bind fun _ hrest =>
      .pure (List.forall_mem_cons.mpr ⟨hfirst, hrest⟩)

end Items

end Parser

end TypedScript
