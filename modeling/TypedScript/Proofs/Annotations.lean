import TypedScript.Proofs.Accepting

/-!
# Type annotations are accepted as they are written

```
type         = intersection ("|" intersection)*
intersection = primary ("&" primary)*
primary      = name | "undefined" | "null" | "{" members "}"
             | "(" type ")" | params "=>" type
member       = name ["?"] (":" type | params [":" type]) [";" | ","]
param        = name ["?"] [":" type]
```

The result of a function type takes all that can belong to it, so without parentheses a
function type stands only at the end of its chain. `DerivesType` is the grammar with this
rule: a phrase is open if it ends with a function type that no parentheses close.

Whether a parenthesis opens parameters or a type is told from the parentheses alone, by what
stands behind the one that closes it. As the parentheses of each phrase are balanced
(`DerivesType.closesBeforeArrow_append`), this is the reading of the derivation. By induction
on the levels of nesting the parser accepts every type with the tree that the grammar derives
(`Grammar.type_accepts`).
-/

namespace TypedScript

/-- What the tokens of a type may make up. -/
inductive TypePhrase where
  | type (isOpen : Bool)
  /-- The members of a union, or the only member. -/
  | alternatives (isOpen : Bool)
  | intersection (isOpen : Bool)
  /-- The members of an intersection, or the only member. -/
  | factors (isOpen : Bool)
  | primary (isOpen : Bool)
  /-- A type behind a colon, or nothing. -/
  | mark
  | member
  /-- The members of an object type, up to and with the closing brace. -/
  | members
  | parameter
  /-- Parameters from behind the opening parenthesis, up to and with the closing one. -/
  | parameters

/-- What a phrase means. -/
@[reducible]
def TypePhrase.Tree : TypePhrase → Type
  | .type _ | .intersection _ | .primary _ => TypeExpr
  | .alternatives _ | .factors _ => List TypeExpr
  | .mark => Option TypeExpr
  | .member => Member
  | .members => List Member
  | .parameter => Parameter
  | .parameters => List Parameter

/-- The tokens make up a phrase of a type that means the tree. -/
inductive DerivesType : (phrase : TypePhrase) → List Token → phrase.Tree → Prop
  | oneType {isOpen : Bool} {ts : List Token} {a : TypeExpr} :
      DerivesType (.intersection isOpen) ts a → DerivesType (.type isOpen) ts a
  | union {isOpen : Bool} {t : Token} {ts : List Token} {l : List TypeExpr} :
      DerivesType (.alternatives isOpen) (t :: ts) l → 2 ≤ l.length →
      DerivesType (.type isOpen) (t :: ts) (.union l t.position)
  | lastAlternative {isOpen : Bool} {ts : List Token} {a : TypeExpr} :
      DerivesType (.intersection isOpen) ts a → DerivesType (.alternatives isOpen) ts [a]
  | alternative {isOpen : Bool} {t : Token} {ts us : List Token} {a : TypeExpr}
      {l : List TypeExpr} : DerivesType (.intersection false) ts a → t.kind = .symbol .bar →
      DerivesType (.alternatives isOpen) us l →
      DerivesType (.alternatives isOpen) (ts ++ t :: us) (a :: l)
  | oneIntersected {isOpen : Bool} {ts : List Token} {a : TypeExpr} :
      DerivesType (.primary isOpen) ts a → DerivesType (.intersection isOpen) ts a
  | intersection {isOpen : Bool} {t : Token} {ts : List Token} {l : List TypeExpr} :
      DerivesType (.factors isOpen) (t :: ts) l → 2 ≤ l.length →
      DerivesType (.intersection isOpen) (t :: ts) (.intersection l t.position)
  | lastFactor {isOpen : Bool} {ts : List Token} {a : TypeExpr} :
      DerivesType (.primary isOpen) ts a → DerivesType (.factors isOpen) ts [a]
  | factor {isOpen : Bool} {t : Token} {ts us : List Token} {a : TypeExpr} {l : List TypeExpr} :
      DerivesType (.primary false) ts a → t.kind = .symbol .ampersand →
      DerivesType (.factors isOpen) us l → DerivesType (.factors isOpen) (ts ++ t :: us) (a :: l)
  | named {t : Token} {name : String} : t.kind = .identifier name →
      DerivesType (.primary false) [t] (.named name t.position)
  | absent {t : Token} : t.kind = .keyword .undefinedWord ∨ t.kind = .keyword .nullWord →
      DerivesType (.primary false) [t] (.named t.lexeme t.position)
  | object {t : Token} {ts : List Token} {l : List Member} : t.kind = .symbol .leftBrace →
      DerivesType .members ts l → DerivesType (.primary false) (t :: ts) (.object l t.position)
  | grouped {isOpen : Bool} {opening closing : Token} {ts : List Token} {a : TypeExpr} :
      opening.kind = .symbol .leftParen → DerivesType (.type isOpen) ts a →
      closing.kind = .symbol .rightParen →
      DerivesType (.primary false) (opening :: (ts ++ [closing])) a
  | function {isOpen : Bool} {opening arrow : Token} {ts us : List Token}
      {params : List Parameter} {result : TypeExpr} : opening.kind = .symbol .leftParen →
      DerivesType .parameters ts params → arrow.kind = .symbol .arrow →
      DerivesType (.type isOpen) us result →
      DerivesType (.primary true) (opening :: (ts ++ arrow :: us))
        (.function params result opening.position)
  | property {isOpen : Bool} {t colon : Token} {qs ts : List Token} {name : String}
      {isOptional : Bool} {type : TypeExpr} : t.property? = some name →
      Derives (.mark .question) qs isOptional → colon.kind = .symbol .colon →
      DerivesType (.type isOpen) ts type →
      DerivesType .member (t :: (qs ++ colon :: ts)) ⟨name, type, isOptional, t.position⟩
  | method {t opening : Token} {qs ps ts : List Token} {name : String} {isOptional : Bool}
      {params : List Parameter} {result? : Option TypeExpr} : t.property? = some name →
      Derives (.mark .question) qs isOptional → opening.kind = .symbol .leftParen →
      DerivesType .parameters ps params → DerivesType .mark ts result? →
      DerivesType .member (t :: (qs ++ opening :: (ps ++ ts)))
        ⟨name, .function params (result?.getD (.named "any" t.position)) opening.position,
          isOptional, t.position⟩
  | noMembers {t : Token} : t.kind = .symbol .rightBrace → DerivesType .members [t] []
  | memberOf {separator : Symbol} {ts ss us : List Token} {isSeparated : Bool} {first : Member}
      {l : List Member} : DerivesType .member ts first →
      separator = .semicolon ∨ separator = .comma → Derives (.mark separator) ss isSeparated →
      DerivesType .members us l → DerivesType .members (ts ++ (ss ++ us)) (first :: l)
  | unmarked : DerivesType .mark [] none
  | marked {isOpen : Bool} {t : Token} {ts : List Token} {a : TypeExpr} :
      t.kind = .symbol .colon → DerivesType (.type isOpen) ts a →
      DerivesType .mark (t :: ts) (some a)
  | parameter {t : Token} {qs ts : List Token} {name : String} {isOptional : Bool}
      {type? : Option TypeExpr} : t.kind = .identifier name →
      Derives (.mark .question) qs isOptional → DerivesType .mark ts type? →
      DerivesType .parameter (t :: (qs ++ ts)) ⟨name, type?, isOptional, t.position⟩
  | noParameters {t : Token} : t.kind = .symbol .rightParen → DerivesType .parameters [t] []
  | lastParameter {t : Token} {ts : List Token} {a : Parameter} : DerivesType .parameter ts a →
      t.kind = .symbol .rightParen → DerivesType .parameters (ts ++ [t]) [a]
  | parameterBefore {t : Token} {ts us : List Token} {a : Parameter} {l : List Parameter} :
      DerivesType .parameter ts a → t.kind = .symbol .comma → DerivesType .parameters us l →
      DerivesType .parameters (ts ++ t :: us) (a :: l)

namespace DerivesType

variable {phrase : TypePhrase} {ts : List Token} {a : phrase.Tree}

/-- Every phrase but a mark that is left out takes a token. -/
theorem ne_nil (h : DerivesType phrase ts a) (hphrase : phrase ≠ .mark) : ts ≠ [] := by
  induction h <;> simp_all

end DerivesType

namespace Grammar

open TypedScript.Parser

/-! ## Parentheses -/

section Parentheses

variable {t : Token} {rest : List Token} {depth : Nat}

theorem closesBeforeArrow_property {name : String} (h : t.property? = some name) :
    closesBeforeArrow depth (t :: rest) = closesBeforeArrow depth rest := by
  obtain ⟨kind, lexeme, position⟩ := t
  cases kind <;> first | rfl | cases h

theorem closesBeforeArrow_symbol {sign : Symbol} (hkind : t.kind = .symbol sign)
    (hopening : sign ≠ .leftParen) (hclosing : sign ≠ .rightParen) :
    closesBeforeArrow depth (t :: rest) = closesBeforeArrow depth rest := by
  obtain ⟨kind, lexeme, position⟩ := t
  cases hkind
  cases sign <;> first | rfl | exact absurd rfl hopening | exact absurd rfl hclosing

theorem closesBeforeArrow_opening (hkind : t.kind = .symbol .leftParen) :
    closesBeforeArrow depth (t :: rest) = closesBeforeArrow (depth + 1) rest := by
  obtain ⟨kind, lexeme, position⟩ := t
  cases hkind
  rfl

theorem closesBeforeArrow_closing (hkind : t.kind = .symbol .rightParen) :
    closesBeforeArrow (depth + 2) (t :: rest) = closesBeforeArrow (depth + 1) rest := by
  have hdeeper : ¬ depth + 2 ≤ 1 := by omega
  obtain ⟨kind, lexeme, position⟩ := t
  cases hkind
  rw [closesBeforeArrow.eq_def]
  dsimp only
  rw [if_neg hdeeper]
  rfl

theorem closesBeforeArrow_last (hkind : t.kind = .symbol .rightParen) :
    closesBeforeArrow 1 (t :: rest) = startsIn (· = .arrow) rest := by
  obtain ⟨kind, lexeme, position⟩ := t
  cases hkind
  cases rest with
  | nil => rfl
  | cons following rest =>
    obtain ⟨kind, lexeme, position⟩ := following
    cases kind <;> rfl

theorem closesBeforeArrow_mark {sign : Symbol} {qs : List Token} {isMarked : Bool}
    (h : Derives (.mark sign) qs isMarked) (hopening : sign ≠ .leftParen)
    (hclosing : sign ≠ .rightParen) :
    closesBeforeArrow depth (qs ++ rest) = closesBeforeArrow depth rest := by
  cases h with
  | unmarked => rfl
  | marked hkind => exact closesBeforeArrow_symbol hkind hopening hclosing

end Parentheses

end Grammar

/-- How many parentheses a phrase closes that were opened in front of it. -/
def TypePhrase.closed : TypePhrase → Nat
  | .parameters => 1
  | _ => 0

open Grammar in
/-- Apart from the parenthesis that ends the parameters, a phrase closes the parentheses that it
opens and no other ones. So what stands behind it decides. -/
theorem DerivesType.closesBeforeArrow_append {phrase : TypePhrase} {ts : List Token}
    {a : phrase.Tree} (h : DerivesType phrase ts a) (depth : Nat) (rest : List Token) :
    closesBeforeArrow (depth + 1 + phrase.closed) (ts ++ rest) =
      closesBeforeArrow (depth + 1) rest := by
  induction h generalizing depth rest with
  | oneType _ ih => exact ih depth rest
  | union _ _ ih => exact ih depth rest
  | lastAlternative _ ih => exact ih depth rest
  | alternative _ hkind _ ih ihRest =>
    rw [List.append_assoc]
    refine (ih depth _).trans (Eq.trans ?_ (ihRest depth rest))
    exact closesBeforeArrow_symbol hkind nofun nofun
  | oneIntersected _ ih => exact ih depth rest
  | intersection _ _ ih => exact ih depth rest
  | lastFactor _ ih => exact ih depth rest
  | factor _ hkind _ ih ihRest =>
    rw [List.append_assoc]
    refine (ih depth _).trans (Eq.trans ?_ (ihRest depth rest))
    exact closesBeforeArrow_symbol hkind nofun nofun
  | @named t name hkind =>
    have hname : t.property? = some name := by simp [Token.property?, hkind]
    exact closesBeforeArrow_property hname
  -- a word that is reserved is passed over like a name
  | @absent t hkind =>
    have hname : t.property? = some t.lexeme := by
      rcases hkind with hkind | hkind <;> simp [Token.property?, hkind, Token.Kind.isReserved]
    exact closesBeforeArrow_property hname
  | object hkind _ ih =>
    exact (closesBeforeArrow_symbol hkind nofun nofun).trans (ih depth rest)
  -- within the parentheses the depth is one more, and their end takes it back
  | @grouped isOpen opening closing ts a hopening _ hclosing ih =>
    rw [List.cons_append, List.append_assoc]
    exact (closesBeforeArrow_opening hopening).trans
      ((ih (depth + 1) _).trans (closesBeforeArrow_closing hclosing))
  -- the parameters bring the parenthesis along that closes the first one
  | function hopening _ harrow _ ih ihResult =>
    rw [List.cons_append, List.append_assoc]
    exact (closesBeforeArrow_opening hopening).trans ((ih depth _).trans
      ((closesBeforeArrow_symbol harrow nofun nofun).trans (ihResult depth rest)))
  | property hname hmark hcolon _ ih =>
    rw [List.cons_append, List.append_assoc]
    exact (closesBeforeArrow_property hname).trans ((closesBeforeArrow_mark hmark nofun nofun).trans
      ((closesBeforeArrow_symbol hcolon nofun nofun).trans (ih depth rest)))
  | method hname hmark hopening _ _ ih ihResult =>
    rw [List.cons_append, List.append_assoc, List.cons_append, List.append_assoc]
    exact (closesBeforeArrow_property hname).trans ((closesBeforeArrow_mark hmark nofun nofun).trans
      ((closesBeforeArrow_opening hopening).trans ((ih depth _).trans (ihResult depth rest))))
  | noMembers hkind => exact closesBeforeArrow_symbol hkind nofun nofun
  | memberOf _ hseparator hmark _ ih ihRest =>
    rw [List.append_assoc, List.append_assoc]
    refine (ih depth _).trans (Eq.trans ?_ (ihRest depth rest))
    rcases hseparator with rfl | rfl <;> exact closesBeforeArrow_mark hmark nofun nofun
  | unmarked => rfl
  | marked hkind _ ih =>
    exact (closesBeforeArrow_symbol hkind nofun nofun).trans (ih depth rest)
  | @parameter t qs ts name isOptional type? hkind hmark _ ih =>
    have hname : t.property? = some name := by simp [Token.property?, hkind]
    rw [List.cons_append, List.append_assoc]
    exact (closesBeforeArrow_property hname).trans
      ((closesBeforeArrow_mark hmark nofun nofun).trans (ih depth rest))
  -- parameters end with the parenthesis that counts as closed by the phrase
  | noParameters hkind => exact closesBeforeArrow_closing hkind
  | lastParameter _ hkind ih =>
    rw [List.append_assoc]
    exact (ih (depth + 1) _).trans (closesBeforeArrow_closing hkind)
  | parameterBefore _ hkind _ ih ihRest =>
    rw [List.append_assoc]
    exact (ih (depth + 1) _).trans
      ((closesBeforeArrow_symbol hkind nofun nofun).trans (ihRest depth rest))

namespace Grammar

/-- Parameters end with the parenthesis that closes the one in front of them. -/
theorem closesBeforeArrow_parameters : ∀ {ts : List Token} {l : List Parameter},
    DerivesType .parameters ts l → ∀ rest,
      closesBeforeArrow 1 (ts ++ rest) = startsIn (· = .arrow) rest
  | _, _, .noParameters hkind, _ => closesBeforeArrow_last hkind
  | _, _, .lastParameter ha hkind, rest => by
    rw [List.append_assoc]
    exact (ha.closesBeforeArrow_append 0 _).trans (closesBeforeArrow_last hkind)
  | _, _, .parameterBefore ha hkind hl, rest => by
    rw [List.append_assoc]
    exact (ha.closesBeforeArrow_append 0 _).trans
      ((closesBeforeArrow_symbol hkind nofun nofun).trans (closesBeforeArrow_parameters hl rest))

/-- A parenthesis at the front of a primary type is closed before an arrow if and only if it
opens the parameters of a function type. -/
theorem closesBeforeArrow_primary {isOpen : Bool} {ts rest : List Token} {a : TypeExpr}
    (h : DerivesType (.primary isOpen) ts a) (hrest : startsIn (· = .arrow) rest = false)
    (hts : startsIn (· = .leftParen) ts = true) : closesBeforeArrow 0 (ts ++ rest) = isOpen := by
  cases h with
  | named hkind =>
    rw [startsIn_of_ne fun sign hsign => by rw [hkind] at hsign; cases hsign] at hts
    cases hts
  | absent hkind =>
    rw [startsIn_of_ne fun sign hsign => by
      rcases hkind with hkind | hkind <;> rw [hkind] at hsign <;> cases hsign] at hts
    cases hts
  | object hkind => simp [startsIn_symbol hkind] at hts
  | grouped hopening ha hclosing =>
    rw [List.cons_append, List.append_assoc]
    exact (closesBeforeArrow_opening hopening).trans ((ha.closesBeforeArrow_append 0 _).trans
      ((closesBeforeArrow_last hclosing).trans hrest))
  | function hopening hparams harrow =>
    rw [List.cons_append, List.append_assoc]
    exact (closesBeforeArrow_opening hopening).trans ((closesBeforeArrow_parameters hparams _).trans
      ((startsIn_symbol harrow).trans (decide_eq_true rfl)))

end Grammar

/-! ## Chains and lists -/

namespace DerivesType

open TypedScript.Parser

variable {isOpen : Bool} {ts : List Token}

theorem chaining_alternatives : ∀ {ts : List Token} {l : List TypeExpr},
    DerivesType (.alternatives isOpen) ts l →
    Chaining .bar (DerivesType (.intersection false)) (DerivesType (.intersection isOpen)) ts l
  | _, _, .lastAlternative ha => .last ha
  | _, _, .alternative ha hkind hl => .more ha hkind hl.chaining_alternatives

theorem chaining_factors : ∀ {ts : List Token} {l : List TypeExpr},
    DerivesType (.factors isOpen) ts l →
    Chaining .ampersand (DerivesType (.primary false)) (DerivesType (.primary isOpen)) ts l
  | _, _, .lastFactor ha => .last ha
  | _, _, .factor ha hkind hl => .more ha hkind hl.chaining_factors

theorem listing : ∀ {ts : List Token} {l : List Parameter}, DerivesType .parameters ts l →
    Listing .rightParen (DerivesType .parameter) ts l
  | _, _, .noParameters hkind => .closed hkind
  | _, _, .lastParameter ha hkind => .last ha hkind
  | _, _, .parameterBefore ha hkind hl => .more ha hkind hl.listing

end DerivesType

namespace Grammar

open TypedScript.Parser

/-! ## Rules -/

/-- Whether a type goes on with a symbol. -/
def continuesType (sign : Symbol) : Bool :=
  sign = .bar || sign = .ampersand || sign = .arrow

/-- Whether a symbol may not stand behind an intersection. -/
def continuesIntersection (isOpen : Bool) (sign : Symbol) : Bool :=
  sign = .ampersand || sign = .arrow || (isOpen && continuesType sign)

/-- Whether a symbol may not stand behind a primary type. -/
def continuesPrimary (isOpen : Bool) (sign : Symbol) : Bool :=
  sign = .arrow || (isOpen && continuesType sign)

/-- With so many levels to go down, a parser accepts every type, in front of tokens that do not
go on with a type. It needs at most one level for each token. -/
def AcceptsTypes (levels : Nat) (p : Parser TypeExpr) : Prop :=
  ∀ depth isOpen ts a rest, maxNesting < depth + levels → DerivesType (.type isOpen) ts a →
    startsIn continuesType rest = false → Accepts depth ts.length (ts ++ rest) p a rest

section Rules

variable {levels : Nat} {inner : Parser TypeExpr} (hinner : AcceptsTypes levels inner)
  {depth : Nat} (hdepth : maxNesting < depth + levels) {ts rest : List Token}

include hinner hdepth

theorem typeMark_accepts {type? : Option TypeExpr} (h : DerivesType .mark ts type?)
    (hrest : startsIn (fun sign => sign = .colon || continuesType sign) rest = false) :
    Accepts depth ts.length (ts ++ rest) (typeMark inner) type? rest := by
  cases h with
  | unmarked =>
    exact .eat_not (startsIn_false_mono (fun sign => by cases sign <;> decide) hrest) .pure
  | @marked isOpen t ts a hkind ha =>
    have hends : startsIn continuesType rest = false :=
      startsIn_false_mono (fun sign => by cases sign <;> decide) hrest
    have htype := hinner depth isOpen ts a rest hdepth ha hends
    exact .eat hkind (htype.mono (by rw [List.length_cons]; omega)).map

theorem parameter_accepts {param : Parameter} (h : DerivesType .parameter ts param)
    (hrest : startsIn (fun sign => sign = .comma || sign = .rightParen) rest = true) :
    Accepts depth ts.length (ts ++ rest) (parameter inner) param rest := by
  cases h with
  | @parameter t qs ts name isOptional type? hname hmark htype =>
    have hends : startsIn (fun sign => sign = .colon || continuesType sign) rest = false :=
      startsIn_false_of_true (fun sign => by cases sign <;> decide) hrest
    have hbehind : startsIn (· = .question) (ts ++ rest) = false := by
      cases htype with
      | unmarked => exact startsIn_false_of_true (fun sign => by cases sign <;> decide) hrest
      | marked hkind => simp [startsIn_symbol hkind]
    have htype := typeMark_accepts hinner hdepth htype hends
    rw [List.cons_append, List.append_assoc, List.length_cons, List.length_append]
    exact .identifier hname (.mark hmark hbehind (htype.mono (by omega)).map)

theorem parameters_accepts {opening : Token} {params : List Parameter} (rest : List Token)
    (hopening : opening.kind = .symbol .leftParen) (h : DerivesType .parameters ts params) :
    Accepts depth ts.length (opening :: (ts ++ rest)) (parameters inner) params rest := by
  have hitems := h.listing.mono fun us a ha _ hlength => And.intro ha hlength
  refine .expect hopening (hitems.accepts (by decide) ?_ ?_ rest)
  · rintro us param ⟨hparam, -⟩
    refine ⟨hparam.ne_nil nofun, ?_⟩
    cases hparam with
    | parameter hname => exact startsIn_of_ne fun sign hsign => by rw [hname] at hsign; cases hsign
  · rintro us param rest ⟨hparam, hlength⟩ hrest
    exact (parameter_accepts hinner hdepth hparam hrest).mono (by omega)

theorem member_accepts {m : Member} (h : DerivesType .member ts m)
    (hrest : startsIn (fun sign => sign = .colon || continuesType sign) rest = false) :
    Accepts depth ts.length (ts ++ rest) (member inner) m rest := by
  cases h with
  | @property isOpen t colon qs ts name isOptional type hname hmark hcolon htype =>
    have hends : startsIn continuesType rest = false :=
      startsIn_false_mono (fun sign => by cases sign <;> decide) hrest
    have htype := hinner depth isOpen ts type rest hdepth htype hends
    rw [List.cons_append, List.append_assoc, List.length_cons, List.length_append, List.length_cons]
    refine .propertyName hname (.mark hmark (by simp [startsIn_symbol hcolon]) (.sees ?_))
    rw [List.cons_append, startsIn_symbol hcolon]
    exact .expect hcolon (htype.mono (by omega)).map
  | @method t opening qs ps ts name isOptional params result? hname hmark hopening hparams
      hresult =>
    have hparams := parameters_accepts hinner hdepth (ts ++ rest) hopening hparams
    have hresult := typeMark_accepts hinner hdepth hresult hrest
    rw [List.cons_append, List.append_assoc, List.cons_append, List.append_assoc, List.length_cons,
      List.length_append, List.length_cons, List.length_append]
    refine .propertyName hname (.mark hmark (by simp [startsIn_symbol hopening]) (.sees ?_))
    rw [startsIn_symbol hopening]
    exact .position ((hparams.mono (by omega)).bind (hresult.mono (by omega)).map)

omit hinner hdepth in
/-- The first token of members is the brace or the name of a member. -/
theorem startsIn_members {l : List Member} (h : DerivesType .members ts l) (rest : List Token) :
    startsIn (fun sign => !(sign = .rightBrace)) (ts ++ rest) = false := by
  cases h with
  | noMembers hkind => simp [startsIn_symbol hkind]
  | memberOf hfirst =>
    cases hfirst with
    | property hname => exact startsIn_of_ne (ne_symbol_of_property? hname)
    | method hname => exact startsIn_of_ne (ne_symbol_of_property? hname)

theorem membersUntilBrace_accepts (need bound : Nat) : ∀ {ts : List Token} {l : List Member},
    DerivesType .members ts l → ts.length ≤ bound → ts.length ≤ need →
      Accepts depth need (ts ++ rest) (membersUntilBrace inner bound) l rest := by
  induction bound with
  | zero =>
    intro ts l h hbound
    exact absurd (List.length_eq_zero_iff.mp (Nat.le_zero.mp hbound)) (h.ne_nil nofun)
  | succ bound ih =>
    intro ts l h hbound hneed
    cases h with
    | noMembers hkind => exact .eat hkind .pure
    | @memberOf separator ts ss us isSeparated first l hfirst hseparator hmark hl =>
      rw [List.length_append, List.length_append] at hbound hneed
      have hpos := List.length_pos_iff.mpr (hfirst.ne_nil nofun)
      have hbrace := startsIn_members hl rest
      have hbehind := ih hl (by omega) (by omega)
      have hstart : startsIn (· = .rightBrace) (ts ++ (ss ++ (us ++ rest))) = false := by
        cases hfirst with
        | property hname => exact startsIn_of_ne (ne_symbol_of_property? hname)
        | method hname => exact startsIn_of_ne (ne_symbol_of_property? hname)
      have hends : startsIn (fun sign => sign = .colon || continuesType sign)
          (ss ++ (us ++ rest)) = false := by
        cases hmark with
        | unmarked => exact startsIn_false_mono (fun sign => by cases sign <;> decide) hbrace
        | marked hkind =>
          rcases hseparator with rfl | rfl <;> exact (startsIn_symbol hkind).trans (by decide)
      have hfirst := member_accepts hinner hdepth hfirst hends
      rw [List.append_assoc, List.append_assoc]
      refine .eat_not hstart ((hfirst.mono (by omega)).bind ?_)
      -- a semicolon, a comma, or nothing in front of the next member
      have hother : ∀ sign, sign ≠ .rightBrace → startsIn (· = sign) (us ++ rest) = false :=
        fun sign hsign => startsIn_false_mono
          (fun other h => by cases of_decide_eq_true h; simpa using hsign) hbrace
      cases hmark with
      | unmarked =>
        exact .eat_not (hother .semicolon nofun) (.eat_not (hother .comma nofun) hbehind.map)
      | marked hkind =>
        rcases hseparator with rfl | rfl
        · exact .eat hkind hbehind.map
        · exact .eat_not (by simp [startsIn_symbol hkind]) (.eat hkind hbehind.map)

theorem members_accepts {l : List Member} (h : DerivesType .members ts l) :
    Accepts depth ts.length (ts ++ rest) (members inner) l rest :=
  have hbound : ts.length ≤ (ts ++ rest).length + 1 := by
    rw [List.length_append]
    omega
  .remaining (membersUntilBrace_accepts hinner hdepth _ _ h hbound (Nat.le_refl _))

theorem functionType_accepts {isOpen : Bool} {opening arrow : Token} {us : List Token}
    {params : List Parameter} {result : TypeExpr} (hopening : opening.kind = .symbol .leftParen)
    (hparams : DerivesType .parameters ts params) (harrow : arrow.kind = .symbol .arrow)
    (hresult : DerivesType (.type isOpen) us result)
    (hrest : startsIn continuesType rest = false) :
    Accepts depth (ts.length + us.length) (opening :: (ts ++ arrow :: (us ++ rest)))
      (functionType inner) (.function params result opening.position) rest := by
  have hparams := parameters_accepts hinner hdepth (arrow :: (us ++ rest)) hopening hparams
  have hresult := hinner depth isOpen us result rest hdepth hresult hrest
  exact .position ((hparams.mono (by omega)).bind (.expect harrow (hresult.mono (by omega)).map))

omit hinner hdepth in
theorem seesFunctionType_accepts {α : Type} {need : Nat} {f : Bool → Parser α} {a : α}
    (h : Accepts depth need ts (f (closesBeforeArrow 0 ts)) a rest) :
    Accepts depth need ts (seesFunctionType >>= f) a rest :=
  h

theorem primaryType_accepts {isOpen : Bool} {a : TypeExpr}
    (h : DerivesType (.primary isOpen) ts a)
    (hrest : startsIn (continuesPrimary isOpen) rest = false) :
    Accepts depth (ts.length - 1) (ts ++ rest) (primaryType inner) a rest := by
  have harrow : startsIn (· = .arrow) rest = false :=
    startsIn_false_mono (fun sign h => by simp [continuesPrimary, h]) hrest
  have hlookahead := closesBeforeArrow_primary h harrow
  refine .peek? ?_
  cases h with
  | @named t name hkind =>
    dsimp only [List.cons_append, List.head?_cons]
    rw [hkind]
    exact .skip .pure
  | @absent t hkind =>
    dsimp only [List.cons_append, List.head?_cons]
    rcases hkind with hkind | hkind <;> rw [hkind] <;> exact .skip .pure
  | @object t ts l hkind hl =>
    dsimp only [List.cons_append, List.head?_cons]
    rw [hkind]
    exact .skip ((members_accepts hinner hdepth hl).mono (by simp)).map
  | @grouped isOpen opening closing ts a hopening ha hclosing =>
    have hlookahead := hlookahead (by simp [startsIn_symbol hopening])
    dsimp only [List.cons_append, List.head?_cons] at hlookahead ⊢
    rw [hopening]
    refine seesFunctionType_accepts ?_
    rw [hlookahead]
    have hends : startsIn continuesType (closing :: rest) = false :=
      (startsIn_symbol hclosing).trans (by decide)
    have htype := hinner depth isOpen ts a _ hdepth ha hends
    rw [List.append_assoc]
    exact .skip ((htype.mono (by simp)).bind (.expect hclosing .pure))
  | @function isOpen opening arrow ts us params result hopening hparams harrow' hresult =>
    have hlookahead := hlookahead (by simp [startsIn_symbol hopening])
    dsimp only [List.cons_append, List.head?_cons] at hlookahead ⊢
    rw [hopening]
    refine seesFunctionType_accepts ?_
    rw [hlookahead, List.append_assoc]
    have hends : startsIn continuesType rest = false :=
      startsIn_false_mono (fun sign h => by simp [continuesPrimary, h]) hrest
    have htype := functionType_accepts hinner hdepth hopening hparams harrow' hresult hends
    exact htype.mono (by simp)

omit hinner hdepth in
theorem collapse_of_two (build : List TypeExpr → Position → TypeExpr) {l : List TypeExpr}
    (h : 2 ≤ l.length) (position : Position) : collapse build l position = build l position := by
  match l with
  | [] => simp at h
  | [a] => simp at h
  | a :: b :: l => rfl

theorem intersectionType_accepts {isOpen : Bool} {a : TypeExpr}
    (h : DerivesType (.intersection isOpen) ts a)
    (hrest : startsIn (continuesIntersection isOpen) rest = false) :
    Accepts depth (ts.length - 1) (ts ++ rest) (intersectionType inner) a rest := by
  have hchain : ∀ {l}, Chaining .ampersand (DerivesType (.primary false))
      (DerivesType (.primary isOpen)) ts l →
      Accepts depth (ts.length - 1) (ts ++ rest) (separatedBy .ampersand (primaryType inner)) l
        rest := by
    refine Chaining.accepts
      (startsIn_false_mono (fun sign h => by simp [continuesIntersection, h]) hrest) ?_ ?_
    · intro us a behind hlength ha hbehind
      have hends : startsIn (continuesPrimary false) behind = false :=
        startsIn_false_of_true (fun sign h => by cases of_decide_eq_true h; rfl) hbehind
      exact (primaryType_accepts hinner hdepth ha hends).mono (by omega)
    · intro us a hlength ha
      have hends : startsIn (continuesPrimary isOpen) rest = false :=
        startsIn_false_mono (fun sign => by simp +contextual [continuesPrimary,
          continuesIntersection, or_imp]) hrest
      exact (primaryType_accepts hinner hdepth ha hends).mono (by omega)
  cases h with
  | oneIntersected ha => exact .position (hchain (.last ha)).map
  | intersection hl hlength =>
    rw [← collapse_of_two .intersection hlength]
    exact .position (hchain hl.chaining_factors).map

end Rules

theorem unionType_accepts {levels : Nat} {inner : Parser TypeExpr}
    (hinner : AcceptsTypes levels inner) : AcceptsTypes (levels + 1) (unionType inner) := by
  intro depth isOpen ts a rest hdepth h hrest
  have hpos := List.length_pos_iff.mpr (h.ne_nil nofun)
  have hdeeper : maxNesting < depth + 1 + levels := by omega
  have hchain : ∀ {l}, Chaining .bar (DerivesType (.intersection false))
      (DerivesType (.intersection isOpen)) ts l →
      Accepts (depth + 1) (ts.length - 1) (ts ++ rest)
        (separatedBy .bar (intersectionType inner)) l rest := by
    refine Chaining.accepts
      (startsIn_false_mono (fun sign h => by simp [continuesType, h]) hrest) ?_ ?_
    · intro us a behind hlength ha hbehind
      have hends : startsIn (continuesIntersection false) behind = false :=
        startsIn_false_of_true (fun sign h => by cases of_decide_eq_true h; rfl) hbehind
      exact (intersectionType_accepts hinner hdeeper ha hends).mono (by omega)
    · intro us a hlength ha
      have hends : startsIn (continuesIntersection isOpen) rest = false :=
        startsIn_false_mono (fun sign => by cases sign <;> cases isOpen <;> decide) hrest
      exact (intersectionType_accepts hinner hdeeper ha hends).mono (by omega)
  refine .position (.nested _ hpos ?_)
  cases h with
  | oneType ha => exact (hchain (.last ha)).map
  | union hl hlength =>
    rw [← collapse_of_two .union hlength]
    exact (hchain hl.chaining_alternatives).map

theorem typeUpTo_accepts (levels : Nat) : AcceptsTypes levels (typeUpTo levels) := by
  induction levels with
  | zero => exact fun depth _ _ _ _ hdepth _ _ => .outOfLevels (by omega)
  | succ levels ih => exact unionType_accepts ih

/-- The parser accepts every type with the tree that the grammar derives, in front of any token
that does not go on with it. It may fail only where the nesting becomes too deep, and never
with a level left for each token. The parenthesis in front of a primary type is taken to open
parameters if and only if it does so in the derivation. -/
theorem type_accepts :
    (∀ isOpen ts rest a depth, DerivesType (.type isOpen) ts a →
      startsIn continuesType rest = false →
      Accepts depth ts.length (ts ++ rest) typeExpr a rest) ∧
    (∀ isFunction ts rest a depth, DerivesType (.primary isFunction) ts a →
      startsIn (· = .leftParen) ts = true → startsIn (· = .arrow) rest = false →
      seesFunctionType ⟨ts ++ rest, depth⟩ = .ok isFunction ⟨ts ++ rest, depth⟩) := by
  refine ⟨fun isOpen ts rest a depth h hrest => ?_,
    fun isFunction ts rest a depth h hts hrest => ?_⟩
  · exact typeUpTo_accepts _ depth isOpen ts a rest (by omega) h hrest
  · rw [← closesBeforeArrow_primary h hrest hts]
    rfl

/-- In `(A) | (x) => B & C` the first parenthesis opens a type and the second one the
parameters of a function type, to whose result the intersection belongs. -/
theorem type_accepts_of_union :
    let name (text : String) (column : Nat) : Token := ⟨.identifier text, text, ⟨1, column⟩⟩
    let symbol (sign : Symbol) (column : Nat) : Token := ⟨.symbol sign, sign.spelling, ⟨1, column⟩⟩
    let first := [symbol .leftParen 1, name "A" 2, symbol .rightParen 3]
    let second := [symbol .leftParen 7, name "x" 8, symbol .rightParen 9, symbol .arrow 11,
      name "B" 14, symbol .ampersand 16, name "C" 18]
    let rest := [symbol .semicolon 19]
    let type : TypeExpr := .union [.named "A" ⟨1, 2⟩, .function [⟨"x", none, false, ⟨1, 8⟩⟩]
      (.intersection [.named "B" ⟨1, 14⟩, .named "C" ⟨1, 18⟩] ⟨1, 14⟩) ⟨1, 7⟩] ⟨1, 1⟩
    (DerivesType (.type true) (first ++ symbol .bar 5 :: second) type ∧
      typeExpr ⟨(first ++ symbol .bar 5 :: second) ++ rest, 0⟩ = .ok type ⟨rest, 0⟩) ∧
    seesFunctionType ⟨first ++ symbol .bar 5 :: (second ++ rest), 0⟩ =
      .ok false ⟨first ++ symbol .bar 5 :: (second ++ rest), 0⟩ ∧
    seesFunctionType ⟨second ++ rest, 0⟩ = .ok true ⟨second ++ rest, 0⟩ := by
  intro name symbol first second rest type
  have hname : ∀ text column, DerivesType (.primary false) [name text column]
      (.named text ⟨1, column⟩) := fun _ _ => .named rfl
  have hfirst : DerivesType (.primary false) first _ :=
    .grouped rfl (.oneType (.oneIntersected (hname "A" 2))) rfl
  have hresult : DerivesType (.type false) [name "B" 14, symbol .ampersand 16, name "C" 18] _ :=
    .oneType (.intersection (.factor (hname "B" 14) rfl (.lastFactor (hname "C" 18))) (by decide))
  have hparams : DerivesType .parameters [name "x" 8, symbol .rightParen 9] _ :=
    .lastParameter (.parameter rfl .unmarked .unmarked) rfl
  have hsecond : DerivesType (.primary true) second _ := .function rfl hparams rfl hresult
  have htype : DerivesType (.type true) (first ++ symbol .bar 5 :: second) type :=
    .union (.alternative (.oneIntersected hfirst) rfl (.lastAlternative (.oneIntersected hsecond)))
      (by decide)
  exact ⟨⟨htype, (type_accepts.1 true _ rest type 0 htype rfl).eq_ok (by decide)⟩,
    type_accepts.2 false first (symbol .bar 5 :: (second ++ rest)) _ 0 hfirst rfl rfl,
    type_accepts.2 true second rest _ 0 hsecond rfl rfl⟩

end Grammar

end TypedScript
