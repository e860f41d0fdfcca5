import TypedScript.Proofs.Reading

/-!
# What parsers accept

A parser accepts a value if it takes the tokens in front of the rest and gives the value,
unless the levels of nesting run out on the way (`Parser.Accepts`). How many levels may
be needed is said as well, so that with so many levels left the value is given for sure.

Reading says what the tokens make up that a parser has taken. Accepting is the other
direction, and follows a parser forward over tokens that are known: there is one lemma for
each way in which parsers are put together, and the tokens behind a part decide where the
part ends.
-/

namespace TypedScript

/-- Whether the first token is one of some symbols. -/
def startsIn (signs : Symbol → Bool) (ts : List Token) : Bool :=
  match ts.head?.map Token.kind with
  | some (Token.Kind.symbol sign) => signs sign
  | _ => false

section StartsIn

variable {signs signs' : Symbol → Bool} {t : Token} {ts : List Token}

theorem startsIn_symbol {sign : Symbol} (h : t.kind = .symbol sign) :
    startsIn signs (t :: ts) = signs sign := by
  simp [startsIn, h]

theorem startsIn_of_ne (h : ∀ sign, t.kind ≠ .symbol sign) : startsIn signs (t :: ts) = false := by
  unfold startsIn
  simp only [List.head?_cons, Option.map_some]
  split
  · next sign hkind => exact absurd (Option.some.inj hkind) (h sign)
  · rfl

theorem startsIn_append (us : List Token) (h : ts ≠ []) :
    startsIn signs (ts ++ us) = startsIn signs ts := by
  cases ts with
  | nil => exact absurd rfl h
  | cons t ts => rfl

/-- The first token is a symbol for which the one set of symbols stands for the other. -/
theorem startsIn_false_mono (hle : ∀ sign, signs' sign = true → signs sign = true)
    (h : startsIn signs ts = false) : startsIn signs' ts = false := by
  unfold startsIn at h ⊢
  split
  · next sign hkind =>
    rw [hkind] at h
    exact Bool.eq_false_iff.mpr fun hsign => Bool.eq_false_iff.mp h (hle sign hsign)
  · rfl

/-- A token that is one of some symbols is none of others. -/
theorem startsIn_false_of_true (hdisjoint : ∀ sign, signs sign = true → signs' sign = false)
    (h : startsIn signs ts = true) : startsIn signs' ts = false := by
  unfold startsIn at h ⊢
  split
  · next sign hkind =>
    rw [hkind] at h
    exact hdisjoint sign h
  · rfl

end StartsIn

namespace Parser

variable {α β : Type}

/-- At a depth the parser takes the tokens in front of the rest and gives the value, unless
the nesting becomes too deep, for which more levels have to be needed than are left. -/
def Accepts (depth need : Nat) (ts : List Token) (p : Parser α) (a : α) (rest : List Token) :
    Prop :=
  p ⟨ts, depth⟩ = .ok a ⟨rest, depth⟩ ∨
    maxNesting < depth + need ∧ ∃ position c, p ⟨ts, depth⟩ = .error ⟨.tooDeeplyNested, position⟩ c

/-- With enough levels left the value is given. -/
theorem Accepts.eq_ok {depth need : Nat} {ts rest : List Token} {p : Parser α} {a : α}
    (h : Accepts depth need ts p a rest) (hneed : depth + need ≤ maxNesting) :
    p ⟨ts, depth⟩ = .ok a ⟨rest, depth⟩ :=
  h.resolve_right fun hdeep => by omega

namespace Accepts

variable {depth need : Nat} {t : Token} {ts us rest : List Token} {p : Parser α} {a : α}
  {f : α → Parser β} {b : β}

theorem pure : Accepts depth need ts (Pure.pure a) a ts :=
  .inl rfl

theorem bind (hp : Accepts depth need ts p a us) (hf : Accepts depth need us (f a) b rest) :
    Accepts depth need ts (p >>= f) b rest := by
  rcases hp with hp | ⟨hneed, position, c, hp⟩
  · unfold Accepts
    rw [bind_of_ok hp]
    exact hf
  · exact .inr ⟨hneed, position, c, bind_of_error hp⟩

theorem map {g : α → β} (hp : Accepts depth need ts p a rest) :
    Accepts depth need ts (p >>= fun a => Pure.pure (g a)) (g a) rest :=
  hp.bind .pure

theorem mono {need' : Nat} (hp : Accepts depth need ts p a rest) (hle : need ≤ need') :
    Accepts depth need' ts p a rest :=
  hp.imp_right fun ⟨hneed, hdeep⟩ => ⟨by omega, hdeep⟩

/-- A level that is opened is one of those that are needed. -/
theorem nested (position : Position) (hneed : 0 < need)
    (hp : Accepts (depth + 1) (need - 1) ts p a rest) :
    Accepts depth need ts (Parser.nested position p) a rest := by
  rcases Nat.lt_or_ge depth maxNesting with hdepth | hdepth
  · rcases hp with hp | ⟨hdeep, position', c, hp⟩
    · exact .inl (nested_of_ok position hdepth hp)
    · refine .inr ⟨by omega, position', { c with depth := c.depth - 1 }, ?_⟩
      unfold Parser.nested
      rw [if_neg (by simpa using hdepth)]
      dsimp only
      rw [hp]
  · refine .inr ⟨by omega, position, ⟨ts, depth⟩, ?_⟩
    unfold Parser.nested
    exact if_pos hdepth

theorem outOfLevels (h : maxNesting < depth + need) :
    Accepts depth need ts (Parser.outOfLevels : Parser α) a rest :=
  .inr ⟨h, _, _, rfl⟩

/-! ### Single tokens -/

theorem peek? {f : Option Token → Parser β} (h : Accepts depth need ts (f ts.head?) b rest) :
    Accepts depth need ts (Parser.peek? >>= f) b rest :=
  h

theorem position {f : Position → Parser β}
    (h : Accepts depth need ts (f (startOf ts)) b rest) :
    Accepts depth need ts (Parser.position >>= f) b rest :=
  h

theorem remaining {f : Nat → Parser β} (h : Accepts depth need ts (f ts.length) b rest) :
    Accepts depth need ts (Parser.remaining >>= f) b rest :=
  h

theorem skip {f : Unit → Parser β} (h : Accepts depth need ts (f ()) b rest) :
    Accepts depth need (t :: ts) (Parser.skip >>= f) b rest :=
  h

theorem next {f : Token → Parser β} {expected : String} (h : Accepts depth need ts (f t) b rest) :
    Accepts depth need (t :: ts) (Parser.next expected >>= f) b rest :=
  h

theorem sees {sign : Symbol} {f : Bool → Parser β}
    (h : Accepts depth need ts (f (startsIn (· = sign) ts)) b rest) :
    Accepts depth need ts (Parser.sees sign >>= f) b rest := by
  have hsees : (Parser.sees sign >>= f) ⟨ts, depth⟩ = f (startsIn (· = sign) ts) ⟨ts, depth⟩ := by
    cases ts with
    | nil => rfl
    | cons t ts =>
      obtain ⟨kind, lexeme, position⟩ := t
      cases kind <;> rfl
  unfold Accepts
  rw [hsees]
  exact h

theorem eat {sign : Symbol} {f : Bool → Parser β} (hkind : t.kind = .symbol sign)
    (h : Accepts depth need ts (f true) b rest) :
    Accepts depth need (t :: ts) (Parser.eat sign >>= f) b rest := by
  unfold Parser.eat
  rw [bind_assoc]
  refine .sees ?_
  rw [startsIn_symbol hkind, decide_eq_true rfl]
  exact h

theorem eat_not {sign : Symbol} {f : Bool → Parser β} (hts : startsIn (· = sign) ts = false)
    (h : Accepts depth need ts (f false) b rest) :
    Accepts depth need ts (Parser.eat sign >>= f) b rest := by
  unfold Parser.eat
  rw [bind_assoc]
  refine .sees ?_
  rw [hts]
  exact h

/-- A symbol that may be left out, in front of another token. -/
theorem mark {sign : Symbol} {f : Bool → Parser β} {isMarked : Bool}
    (h : Derives (.mark sign) us isMarked) (hts : startsIn (· = sign) ts = false)
    (hf : Accepts depth need ts (f isMarked) b rest) :
    Accepts depth need (us ++ ts) (Parser.eat sign >>= f) b rest := by
  cases h with
  | unmarked => exact eat_not hts hf
  | marked hkind => exact eat hkind hf

theorem expect {sign : Symbol} {f : Token → Parser β} {expected : String}
    (hkind : t.kind = .symbol sign) (h : Accepts depth need ts (f t) b rest) :
    Accepts depth need (t :: ts) (Parser.expect sign expected >>= f) b rest := by
  unfold Parser.expect
  rw [bind_assoc]
  refine .next ?_
  rw [if_pos (ReadsFrom.isSymbol_iff.mpr hkind)]
  exact h

theorem identifier {name : String} {f : String × Position → Parser β}
    (hkind : t.kind = .identifier name) (h : Accepts depth need ts (f (name, t.position)) b rest) :
    Accepts depth need (t :: ts) (Parser.identifier >>= f) b rest := by
  unfold Parser.identifier
  rw [bind_assoc]
  refine .next ?_
  rw [hkind]
  exact h

theorem propertyName {name : String} {f : String × Position → Parser β}
    (hname : t.property? = some name) (h : Accepts depth need ts (f (name, t.position)) b rest) :
    Accepts depth need (t :: ts) (Parser.propertyName >>= f) b rest := by
  unfold Parser.propertyName
  rw [bind_assoc]
  refine .next ?_
  obtain ⟨kind, lexeme, position⟩ := t
  cases kind with
  | identifier | text | boolean | keyword =>
    cases Option.some.inj hname
    exact h
  | number | symbol | openText | comment | blank | endOfInput => exact nomatch hname

end Accepts

/-- The name of a property is no symbol. -/
theorem ne_symbol_of_property? {t : Token} {name : String} (h : t.property? = some name)
    (sign : Symbol) : t.kind ≠ .symbol sign := by
  intro hkind
  unfold Token.property? at h
  rw [hkind] at h
  cases h

/-! ### Lists -/

/-- Tokens that make up items with commas between any two and after the last one if need be,
up to and with a closing symbol. -/
inductive Listing (closing : Symbol) (R : List Token → α → Prop) : List Token → List α → Prop
  | closed {t : Token} : t.kind = .symbol closing → Listing closing R [t] []
  | last {t : Token} {ts : List Token} {a : α} : R ts a → t.kind = .symbol closing →
      Listing closing R (ts ++ [t]) [a]
  | more {t : Token} {ts us : List Token} {a : α} {l : List α} : R ts a →
      t.kind = .symbol .comma → Listing closing R us l → Listing closing R (ts ++ t :: us) (a :: l)

namespace Listing

variable {closing : Symbol} {R : List Token → α → Prop} {ts : List Token} {l : List α}

/-- What holds of the items may use that they stand in the list. -/
theorem mono {R' : List Token → α → Prop} (h : Listing closing R ts l)
    (himp : ∀ us a, R us a → a ∈ l → us.length < ts.length → R' us a) :
    Listing closing R' ts l := by
  induction h with
  | closed hkind => exact .closed hkind
  | last ha hkind => exact .last (himp _ _ ha (List.mem_singleton_self _) (by simp)) hkind
  | more ha hkind _ ih =>
    refine .more (himp _ _ ha List.mem_cons_self (by simp)) hkind
      (ih fun us a hua hmem hlength => ?_)
    refine himp us a hua (List.mem_cons_of_mem _ hmem) ?_
    rw [List.length_append, List.length_cons]
    omega

/-- A list of items is accepted if each item is, in front of a comma or of the closing
symbol. -/
theorem accepts {item : Parser α} {depth need : Nat} (hclosing : closing ≠ .comma)
    (hfirst : ∀ us a, R us a → us ≠ [] ∧ startsIn (· = closing) us = false)
    (hitem : ∀ us a rest, R us a → startsIn (fun sign => sign = .comma || sign = closing) rest →
      Accepts depth need (us ++ rest) item a rest)
    (h : Listing closing R ts l) (rest : List Token) :
    Accepts depth need (ts ++ rest) (commaSeparated closing item) l rest := by
  -- a bound will do if there are no more tokens, as each item takes one at least
  have hbound : ∀ bound, ts.length ≤ bound →
      Accepts depth need (ts ++ rest) (itemsUntil closing item bound) l rest := by
    induction h with
    | closed hkind =>
      intro bound hbound
      obtain ⟨bound, rfl⟩ : ∃ k, bound = k + 1 := ⟨bound - 1, by simp at hbound; omega⟩
      exact .eat hkind .pure
    | @last t ts a ha hkind =>
      intro bound hbound
      obtain ⟨bound, rfl⟩ : ∃ k, bound = k + 1 := ⟨bound - 1, by simp at hbound; omega⟩
      obtain ⟨hne, hnot⟩ := hfirst ts a ha
      rw [List.append_assoc]
      refine .eat_not (by rw [startsIn_append _ hne, hnot]) ?_
      refine (hitem ts a _ ha (by simp [startsIn_symbol hkind])).bind (.next ?_)
      have hcomma : ¬t.kind.isSymbol .comma = true := fun hcomma =>
        hclosing (Token.Kind.symbol.inj (hkind.symm.trans (ReadsFrom.isSymbol_iff.mp hcomma)))
      rw [if_neg hcomma, if_pos (ReadsFrom.isSymbol_iff.mpr hkind)]
      exact .pure
    | @more t ts us a l ha hkind _ ih =>
      intro bound hbound
      obtain ⟨bound, rfl⟩ : ∃ k, bound = k + 1 := ⟨bound - 1, by simp at hbound; omega⟩
      obtain ⟨hne, hnot⟩ := hfirst ts a ha
      rw [List.append_assoc]
      refine .eat_not (by rw [startsIn_append _ hne, hnot]) ?_
      refine (hitem ts a _ ha (by simp [startsIn_symbol hkind])).bind (.next ?_)
      rw [if_pos (ReadsFrom.isSymbol_iff.mpr hkind)]
      refine (ih bound ?_).map
      rw [List.length_append, List.length_cons] at hbound
      omega
  refine .remaining (hbound _ ?_)
  rw [List.length_append]
  omega

end Listing

/-! ### Chains -/

/-- Tokens that make up items with a symbol between any two. The last item is of a sort of its
own. -/
inductive Chaining (separator : Symbol) (R : List Token → α → Prop) (Last : List Token → α → Prop) :
    List Token → List α → Prop
  | last {ts : List Token} {a : α} : Last ts a → Chaining separator R Last ts [a]
  | more {t : Token} {ts us : List Token} {a : α} {l : List α} : R ts a →
      t.kind = .symbol separator → Chaining separator R Last us l →
      Chaining separator R Last (ts ++ t :: us) (a :: l)

namespace Chaining

variable {separator : Symbol} {R Last : List Token → α → Prop} {ts rest : List Token} {l : List α}
  {item : Parser α} {depth need : Nat}

theorem itemsAfter_none (hrest : startsIn (· = separator) rest = false) (bound : Nat) :
    Accepts depth need rest (itemsAfter separator item bound) [] rest := by
  cases bound with
  | zero => exact .pure
  | succ bound => exact .eat_not hrest .pure

/-- A chain of items is accepted if each item is, in front of the separator or of what stands
behind the chain. -/
theorem accepts (hrest : startsIn (· = separator) rest = false)
    (hitem : ∀ us a behind, us.length ≤ ts.length → R us a →
      startsIn (· = separator) behind = true → Accepts depth need (us ++ behind) item a behind)
    (hlast : ∀ us a, us.length ≤ ts.length → Last us a →
      Accepts depth need (us ++ rest) item a rest)
    (h : Chaining separator R Last ts l) :
    Accepts depth need (ts ++ rest) (separatedBy separator item) l rest := by
  -- the items behind a separator are read one after the other
  have hbehind : ∀ {us l}, Chaining separator R Last us l → us.length ≤ ts.length →
      ∀ t bound, t.kind = .symbol separator → us.length < bound →
        Accepts depth need (t :: (us ++ rest)) (itemsAfter separator item bound) l rest := by
    intro us l h
    induction h with
    | @last us a ha =>
      intro hlength t bound hkind hbound
      obtain ⟨bound, rfl⟩ : ∃ k, bound = k + 1 := ⟨bound - 1, by omega⟩
      exact .eat hkind ((hlast us a hlength ha).bind (itemsAfter_none hrest bound).map)
    | @more t' us vs a l ha hkind' _ ih =>
      intro hlength t bound hkind hbound
      rw [List.length_append, List.length_cons] at hlength hbound
      obtain ⟨bound, rfl⟩ : ∃ k, bound = k + 1 := ⟨bound - 1, by omega⟩
      have hnext := ih (by omega) t' bound hkind' (by omega)
      rw [List.append_assoc]
      have hfirst := hitem us a (t' :: (vs ++ rest)) (by omega) ha
        (by simp [startsIn_symbol hkind'])
      exact .eat hkind (hfirst.bind hnext.map)
  cases h with
  | last ha => exact (hlast _ _ (Nat.le_refl _) ha).bind (.remaining (itemsAfter_none hrest _).map)
  | @more t us vs a l ha hkind hl =>
    have hlength : us.length + (vs.length + 1) = (us ++ t :: vs).length := by simp
    have hbound : vs.length < (t :: vs ++ rest).length := by
      rw [List.cons_append, List.length_cons, List.length_append]
      omega
    have hfirst := hitem us a (t :: vs ++ rest) (by omega) ha (by simp [startsIn_symbol hkind])
    rw [List.append_assoc]
    exact hfirst.bind (.remaining (hbehind hl (by omega) t _ hkind hbound).map)

end Chaining

end Parser

open TypedScript.Parser in
/-- A list in the grammar, with what is known of its items. -/
theorem Derives.listing {closing : Symbol} {part : Phrase} :
    ∀ {ts : List Token} {l : List part.Tree}, Derives (.list closing part) ts l →
      Listing closing (Derives part) ts l
  | _, _, .closed hkind => .closed hkind
  | _, _, .lastOfList ha hkind => .last ha hkind
  | _, _, .listed ha hkind hl => .more ha hkind hl.listing

end TypedScript
