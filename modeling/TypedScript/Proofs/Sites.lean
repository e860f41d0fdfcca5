import Mathlib.Data.List.Forall2
import TypedScript.Evaluation
import TypedScript.Knowledge

/-!
# The references of a program and the scopes around them

A name is looked up twice: in the scopes of the checker, once, and in the frames
of a run, each time its reference is evaluated. Which scope has it depends on
the names that are there at the moment. A `Level` says of one scope which names
are there for certain, which may be there by now, and which may ever be. For
the statements in a row that are being executed the first two are the same; but
in the body of a function the scopes around it may have got more names since the
function was made.

The `sites` of a program are its references, each with the levels around it. A
name can be found in a scope only if that is one of the `candidates` of the
site (`mem_candidates`). A program is settled if no site has more than one.
-/

namespace TypedScript

/-! ## Levels -/

/-- What is known of the names in one scope. -/
structure Level where
  /-- The names that are there for certain. -/
  made : List String
  /-- The names that may be there by now. -/
  here : List String
  /-- The names that may ever be there. -/
  ever : List String

namespace Level

/-- A scope as a function sees it that is called some time later. -/
def opened (l : Level) : Level :=
  { l with here := l.here ++ l.ever }

/-- The scope of the built-in object. -/
def builtin : Level :=
  ⟨[Native.log.holder], [Native.log.holder], [Native.log.holder]⟩

/-- Whether a scope has the names that a level says, where `sight` tells the
names in it. -/
def Bounds (l : Level) (sight : String → Bool) : Prop :=
  (∀ name ∈ l.made, sight name = true) ∧ ∀ name, sight name = true → name ∈ l.here

theorem Bounds.opened {l : Level} {sight : String → Bool} (h : l.Bounds sight) :
    l.opened.Bounds sight :=
  ⟨h.1, fun name hname => List.mem_append_left _ (h.2 name hname)⟩

theorem Bounds.weaken {l l' : Level} {sight : String → Bool} (h : l.Bounds sight)
    (hmade : ∀ name ∈ l'.made, name ∈ l.made) (hhere : ∀ name ∈ l.here, name ∈ l'.here) :
    l'.Bounds sight :=
  ⟨fun name hname => h.1 name (hmade name hname), fun name hname => hhere name (h.2 name hname)⟩

/-- The level of a scope with one more name. -/
def add (l : Level) (name : String) : Level :=
  { l with made := name :: l.made, here := name :: l.here }

theorem Bounds.add {l : Level} {sight sight' : String → Bool} {name : String}
    (h : l.Bounds sight) (hadd : ∀ other, sight' other = (decide (other = name) || sight other)) :
    (l.add name).Bounds sight' := by
  refine ⟨fun other hother => ?_, fun other hother => ?_⟩
  · rw [hadd]
    rcases List.mem_cons.mp hother with heq | hother
    · exact Bool.or_eq_true_iff.mpr (.inl (decide_eq_true heq))
    · exact Bool.or_eq_true_iff.mpr (.inr (h.1 other hother))
  · rw [hadd] at hother
    rcases Bool.or_eq_true_iff.mp hother with heq | hother
    · exact List.mem_cons.mpr (.inl (of_decide_eq_true heq))
    · exact List.mem_cons_of_mem _ (h.2 other hother)

end Level

/-- The innermost scope that has a name, counted from the inside. -/
def address? (sights : List (String → Bool)) (name : String) : Option Nat :=
  sights.findIdx? (· name)

section Address

variable {sight : String → Bool} {sights : List (String → Bool)} {name : String}

theorem address?_of_has (h : sight name = true) : address? (sight :: sights) name = some 0 := by
  unfold address?
  rw [List.findIdx?_cons]
  exact if_pos h

theorem address?_of_has_not (h : sight name = false) :
    address? (sight :: sights) name = (address? sights name).map (· + 1) := by
  unfold address?
  rw [List.findIdx?_cons]
  exact if_neg (by rw [h]; exact Bool.false_ne_true)

end Address

/-- The scopes in which a name may be found, where the first one counts as the
given number: a scope that has the name for certain hides those further out. -/
def candidatesFrom (name : String) : Nat → List Level → List Nat
  | _, [] => []
  | i, l :: rest =>
    (if name ∈ l.here then [i] else []) ++
      if name ∈ l.made then [] else candidatesFrom name (i + 1) rest

/-- A reference, with the levels around it from the innermost outward. -/
structure Site where
  name : String
  position : Position
  levels : List Level

namespace Site

/-- The scopes in which the name of a site may be found. -/
def candidates (site : Site) : List Nat :=
  candidatesFrom site.name 0 site.levels

/-- Whether the name can be found in one scope only. -/
def isSettled (site : Site) : Bool :=
  site.candidates.length ≤ 1

end Site

theorem mem_candidatesFrom {levels : List Level} {sights : List (String → Bool)}
    (h : List.Forall₂ Level.Bounds levels sights) {name : String} {i : Nat} (first : Nat)
    (haddress : address? sights name = some i) : first + i ∈ candidatesFrom name first levels := by
  induction h generalizing first i with
  | nil => cases haddress
  | @cons l sight rest sights hl _ ih =>
    unfold candidatesFrom
    cases hsight : sight name with
    | true =>
      rw [address?_of_has hsight] at haddress
      cases haddress
      rw [if_pos (hl.2 name hsight)]
      exact List.mem_append_left _ (List.mem_singleton.mpr rfl)
    | false =>
      rw [address?_of_has_not hsight] at haddress
      obtain ⟨j, hj, rfl⟩ := Option.map_eq_some_iff.mp haddress
      have hmade : name ∉ l.made := fun hmem =>
        Bool.false_ne_true (hsight.symm.trans (hl.1 name hmem))
      rw [if_neg hmade]
      refine List.mem_append_right _ ?_
      rw [Nat.add_comm j, ← Nat.add_assoc]
      exact ih (first + 1) hj

/-- The scope in which a name is found is a candidate. -/
theorem Site.mem_candidates (site : Site) {sights : List (String → Bool)}
    (h : List.Forall₂ Level.Bounds site.levels sights) {i : Nat}
    (haddress : address? sights site.name = some i) : i ∈ site.candidates := by
  have hmem := mem_candidatesFrom h 0 haddress
  rw [Nat.zero_add] at hmem
  exact hmem

/-- A settled site has no two candidates. -/
theorem Site.eq_of_isSettled {site : Site} (h : site.isSettled = true) {i j : Nat}
    (hi : i ∈ site.candidates) (hj : j ∈ site.candidates) : i = j := by
  have hlength := of_decide_eq_true h
  cases hcandidates : site.candidates with
  | nil => rw [hcandidates] at hi; exact absurd hi List.not_mem_nil
  | cons first rest =>
    rw [hcandidates, List.length_cons] at hlength
    have hrest : rest = [] := List.eq_nil_of_length_eq_zero (by omega)
    rw [hcandidates, hrest, List.mem_singleton] at hi hj
    rw [hi, hj]

/-! ## The names that statements declare -/

/-- The names that a statement declares in its scope whenever it is executed. -/
def Stmt.declared : Stmt → List String
  | .variable name _ _ _ => [name]
  | _ => []

/-- The names that a statement may declare in its scope. -/
def Stmt.names : Stmt → List String
  | .variable name _ _ _ => [name]
  | .function definition => definition.name?.toList
  | .branch _ _ (some otherwise) _ => otherwise.names
  | _ => []

/-- The names of the functions declared in a row of statements. -/
def functionNames : List Stmt → List String
  | [] => []
  | .function definition :: rest => definition.name?.toList ++ functionNames rest
  | _ :: rest => functionNames rest

/-- The names that a row of statements may declare. -/
def rowNames (l : List Stmt) : List String :=
  l.flatMap Stmt.names

theorem rowNames_of_functionNames {l : List Stmt} {name : String} (h : name ∈ functionNames l) :
    name ∈ rowNames l := by
  induction l with
  | nil => cases h
  | cons s rest ih =>
    have hrest : name ∈ rowNames rest → name ∈ rowNames (s :: rest) := fun h =>
      List.mem_append_right _ h
    cases s with
    | function definition =>
      rcases List.mem_append.mp h with h | h
      · exact List.mem_append_left _ h
      · exact hrest (ih h)
    | _ => exact hrest (ih h)

theorem rowNames_of_mem {l : List Stmt} {s : Stmt} {name : String} (hs : s ∈ l)
    (hname : name ∈ s.names) : name ∈ rowNames l :=
  List.mem_flatMap.mpr ⟨s, hs, hname⟩

/-- The innermost level after a statement. -/
def Stmt.after (levels : List Level) (s : Stmt) : List Level :=
  match levels with
  | [] => []
  | l :: rest => { l with made := s.declared ++ l.made, here := s.names ++ l.here } :: rest

/-- The scope of a row of statements, which has the names of the parameters of a
function as well, once the functions of the row are there. -/
def rowLevel (params : List String) (l : List Stmt) : Level where
  made := functionNames l ++ params
  here := functionNames l ++ params
  ever := rowNames l ++ params

/-! ## Sites -/

mutual

/-- The references in an expression. -/
def Expr.sites (levels : List Level) : Expr → List Site
  | .literal _ _ => []
  | .reference name position => [⟨name, position, levels⟩]
  | .receiver _ => []
  | .unary _ operand _ => operand.sites levels
  | .binary left _ right _ => left.sites levels ++ right.sites levels
  | .assign target _ value _ => target.sites levels ++ value.sites levels
  | .update target _ _ _ => target.sites levels
  | .call callee arguments _ => callee.sites levels ++ sitesOfEach levels arguments
  | .member inner _ _ => inner.sites levels
  | .object fields _ => sitesOfFields levels fields
  | .function definition => definition.sites levels

/-- The references in expressions. -/
def sitesOfEach (levels : List Level) : List Expr → List Site
  | [] => []
  | e :: rest => e.sites levels ++ sitesOfEach levels rest

/-- The references in an expression that may be missing. -/
def sitesOfOption (levels : List Level) : Option Expr → List Site
  | none => []
  | some e => e.sites levels

/-- The references in the value of a property. -/
def Field.sites (levels : List Level) : Field → List Site
  | ⟨_, value, _⟩ => value.sites levels

/-- The references in the values of properties. -/
def sitesOfFields (levels : List Level) : List Field → List Site
  | [] => []
  | field :: rest => field.sites levels ++ sitesOfFields levels rest

/-- The references in the body of a function, which runs some time later. -/
def Function.sites (levels : List Level) : Function → List Site
  | ⟨_, params, _, body, _⟩ => body.sites (levels.map Level.opened) (params.map (·.name))

/-- The references in a block, which is the body of a function with the given
parameters or has none. -/
def Block.sites (levels : List Level) (params : List String) : Block → List Site
  | ⟨statements, _⟩ =>
    sitesOfFunctions (rowLevel params statements :: levels) statements ++
      sitesOfRow (rowLevel params statements :: levels) statements

/-- The references in a statement; those in a declared function belong to the
row. -/
def Stmt.sites (levels : List Level) : Stmt → List Site
  | .variable _ _ value? _ => sitesOfOption levels value?
  | .function _ => []
  | .interface _ => []
  | .expression e _ => e.sites levels
  | .giveBack value? _ => sitesOfOption levels value?
  | .branch condition body none _ => condition.sites levels ++ body.sites levels []
  | .branch condition body (some otherwise) _ =>
    condition.sites levels ++ body.sites levels [] ++ otherwise.sites levels
  | .block b => b.sites levels []
  | .loop none condition? update? body _ =>
    sitesOfOption (⟨[], [], []⟩ :: levels) condition? ++
      sitesOfOption (⟨[], [], []⟩ :: levels) update? ++ body.sites (⟨[], [], []⟩ :: levels) []
  | .loop (some init) condition? update? body _ =>
    init.sites (⟨[], [], init.names⟩ :: levels) ++
      (sitesOfOption (init.after (⟨[], [], init.names⟩ :: levels)) condition? ++
        sitesOfOption (init.after (⟨[], [], init.names⟩ :: levels)) update? ++
        body.sites (init.after (⟨[], [], init.names⟩ :: levels)) [])
  | .repeatWhile condition body _ => condition.sites levels ++ body.sites levels []

/-- The references in the functions declared in a row of statements. -/
def sitesOfFunctions (levels : List Level) : List Stmt → List Site
  | [] => []
  | .function definition :: rest => definition.sites levels ++ sitesOfFunctions levels rest
  | _ :: rest => sitesOfFunctions levels rest

/-- The references in statements one after the other. -/
def sitesOfRow (levels : List Level) : List Stmt → List Site
  | [] => []
  | s :: rest => s.sites levels ++ sitesOfRow (s.after levels) rest

end

/-- The references in a row of statements with the functions it declares, in a
scope of its own that has the names of parameters. -/
def rowSites (levels : List Level) (params : List String) (l : List Stmt) : List Site :=
  sitesOfFunctions (rowLevel params l :: levels) l ++ sitesOfRow (rowLevel params l :: levels) l

theorem Block.sites_eq (levels : List Level) (params : List String) (b : Block) :
    b.sites levels params = rowSites levels params b.statements := by
  obtain ⟨statements, position⟩ := b
  rw [Block.sites]
  rfl

theorem Function.sites_eq (levels : List Level) (f : Function) :
    f.sites levels =
      rowSites (levels.map Level.opened) (f.params.map (·.name)) f.body.statements := by
  obtain ⟨name?, params, result?, body, position⟩ := f
  rw [Function.sites, Block.sites_eq]

theorem mem_sitesOfFunctions {levels : List Level} {l : List Stmt} {site : Site} :
    site ∈ sitesOfFunctions levels l ↔
      ∃ definition, Stmt.function definition ∈ l ∧ site ∈ definition.sites levels := by
  induction l with
  | nil =>
    rw [sitesOfFunctions]
    exact ⟨fun h => absurd h List.not_mem_nil, fun ⟨_, h, _⟩ => absurd h List.not_mem_nil⟩
  | cons s rest ih =>
    cases s with
    | function definition =>
      rw [sitesOfFunctions, List.mem_append, ih]
      constructor
      · rintro (h | ⟨other, hother, h⟩)
        · exact ⟨definition, List.mem_cons_self .., h⟩
        · exact ⟨other, List.mem_cons_of_mem _ hother, h⟩
      · intro hboth
        obtain ⟨other, hother, h⟩ := hboth
        rcases List.mem_cons.mp hother with heq | hother
        · cases heq
          exact .inl h
        · exact .inr ⟨other, hother, h⟩
    | _ =>
      rw [sitesOfFunctions, ih]
      · constructor
        · intro hboth
          obtain ⟨other, hother, h⟩ := hboth
          exact ⟨other, List.mem_cons_of_mem _ hother, h⟩
        · intro hboth
          obtain ⟨other, hother, h⟩ := hboth
          rcases List.mem_cons.mp hother with heq | hother
          · cases heq
          · exact ⟨other, hother, h⟩
      · intro definition heq
        cases heq

/-- The innermost level after a row of statements, from that before it. -/
def levelAfter (l : Level) (row : List Stmt) : Level where
  made := row.reverse.flatMap Stmt.declared ++ l.made
  here := row.reverse.flatMap Stmt.names ++ l.here
  ever := l.ever

namespace Program

/-- The references of a program. -/
def sites (program : Program) : List Site :=
  rowSites [Level.builtin] [] program.statements

/-- Whether each reference can be found in one scope only, and the built-in
object keeps its name at the top level. -/
def isSettled (program : Program) : Bool :=
  program.sites.all Site.isSettled && !(rowNames program.statements).contains Native.log.holder

end Program

end TypedScript
