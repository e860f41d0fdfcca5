/-!
# Positions and faults

Every token and every node of a syntax tree knows where it starts, and every
complaint about a program names such a place. A `Position` counts lines and
columns from one, a column being one character. A `Fault` is a cause of some
kind together with the position it is blamed on; its text is the same for all
kinds of causes.

Reading a text, parsing, checking and running have causes of their own, and
share this one notion of a fault: none of them puts the place of its complaints
into words in another way.
-/

namespace TypedScript

/-- A place in a source text: line and column, both counted from one. -/
structure Position where
  line : Nat
  column : Nat
deriving DecidableEq, Repr

namespace Position

/-- The first character of a text. It also stands for "nowhere" when a list of
tokens ends without an end marker. -/
def start : Position := ⟨1, 1⟩

instance : Inhabited Position := ⟨start⟩

/-- The place behind one character: a line feed opens the next line. -/
def step (p : Position) (c : Char) : Position :=
  if c = '\n' then ⟨p.line + 1, 1⟩ else ⟨p.line, p.column + 1⟩

/-- The place behind a run of characters. -/
def advance (p : Position) (run : List Char) : Position :=
  run.foldl step p

@[simp] theorem advance_nil (p : Position) : p.advance [] = p := rfl

@[simp] theorem advance_cons (p : Position) (c : Char) (run : List Char) :
    p.advance (c :: run) = (p.step c).advance run := rfl

theorem advance_append (p : Position) (first second : List Char) :
    p.advance (first ++ second) = (p.advance first).advance second :=
  List.foldl_append

/-- How a position is written in a message. -/
def text (p : Position) : String :=
  "line " ++ toString p.line ++ ", column " ++ toString p.column

end Position

/-- Causes of a fault: each kind says how it is put into words. -/
class Cause (κ : Type) where
  /-- The wording of a cause, without the place. -/
  text : κ → String

/-- Something that is wrong with a program, and where. -/
structure Fault (κ : Type) where
  cause : κ
  position : Position
deriving DecidableEq

/-- The full message of a fault: the place, then the cause in words. -/
def Fault.message {κ : Type} [Cause κ] (fault : Fault κ) : String :=
  "Error on " ++ fault.position.text ++ ": " ++ Cause.text fault.cause

end TypedScript
