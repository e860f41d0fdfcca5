import TypedScript.Execution

/-!
# The command line

The words of a command line ask for an execution, for the version or for help,
or they are misused. Options may stand before and behind the one word that is
the program, or its file; after `--` no word is an option. Words are read from
left to right, and the first that settles the matter does: a request for the
version is granted even if words behind it make no sense.
-/

namespace TypedScript.CommandLine

/-- What was said on a command line. -/
structure Arguments where
  isFile : Bool := false
  isUnchecked : Bool := false
  isCheckOnly : Bool := false
  maxDepth? : Option Nat := none
  contents? : Option String := none

/-- What a command line asks for. -/
inductive Request where
  /-- The text is the program itself, or the path of its file. -/
  | execute (isFile isCheckOnly : Bool) (options : Options) (text : String)
  | version
  | help
  | misuse
deriving Inhabited

/-- What an invocation leaves behind. -/
structure Reply where
  code : Nat
  output : String
  errors : String

/-- A number written with decimal digits, perhaps after a plus sign, that fits
into sixty-four bits. -/
def number? (word : String) : Option Nat :=
  let digits := match word.toList with
    | '+' :: rest => rest
    | all => all
  if digits ≠ [] ∧ digits.all (·.isDigit) then
    let n := digits.foldl (fun n c => 10 * n + (c.toNat - '0'.toNat)) 0
    if n < twoTo 64 then some n else none
  else none

/-- Whether a word looks like an option. -/
def looksLikeOption (word : String) : Bool :=
  match word.toList with
  | '-' :: _ :: _ => true
  | _ => false

/-- Notes that a program is read from a file; said twice it is a misuse. -/
def Arguments.withFile (a : Arguments) : Except Request Arguments :=
  if a.isFile then .error .misuse else .ok { a with isFile := true }

/-- Notes that a program is not checked; said twice it is a misuse. -/
def Arguments.withUnchecked (a : Arguments) : Except Request Arguments :=
  if a.isUnchecked then .error .misuse else .ok { a with isUnchecked := true }

/-- Notes that a program is only checked; said twice it is a misuse. -/
def Arguments.withCheckOnly (a : Arguments) : Except Request Arguments :=
  if a.isCheckOnly then .error .misuse else .ok { a with isCheckOnly := true }

/-- Notes the bound on calls in progress; said twice it is a misuse. -/
def Arguments.withMaxDepth (a : Arguments) (word : String) : Except Request Arguments :=
  match a.maxDepth?, number? word with
  | none, some n => .ok { a with maxDepth? := some n }
  | _, _ => .error .misuse

/-- Notes the program or its file; a second one is a misuse. -/
def Arguments.withContents (a : Arguments) (word : String) : Except Request Arguments :=
  match a.contents? with
  | none => .ok { a with contents? := some word }
  | some _ => .error .misuse

/-- Reads a bundle of options of one letter each. -/
def readLetters (a : Arguments) : List Char → Except Request Arguments
  | [] => .ok a
  | 'f' :: rest => do readLetters (← a.withFile) rest
  | 'v' :: rest => readLetters a rest
  | 'V' :: _ => .error .version
  | 'h' :: _ => .error .help
  | _ => .error .misuse

/-- Reads the words of a command line. -/
def readWords (a : Arguments) : List String → Except Request Arguments
  | [] => .ok a
  | "--" :: rest => rest.foldlM Arguments.withContents a
  | "--file" :: rest => do readWords (← a.withFile) rest
  | "--unchecked" :: rest => do readWords (← a.withUnchecked) rest
  | "--check-only" :: rest => do readWords (← a.withCheckOnly) rest
  | "--verbose" :: rest => readWords a rest
  | "--version" :: _ => .error .version
  | "--help" :: _ => .error .help
  | "--max-depth" :: word :: rest => do
    if looksLikeOption word then .error .misuse
    else readWords (← a.withMaxDepth word) rest
  | word :: rest => do
    match word.toList with
    | '-' :: '-' :: long =>
      let name := "max-depth=".toList
      if name.isPrefixOf long then
        readWords (← a.withMaxDepth (String.ofList (long.drop name.length))) rest
      else .error .misuse
    | '-' :: c :: letters => readWords (← readLetters a (c :: letters)) rest
    | _ => readWords (← a.withContents word) rest

/-- What the words of a command line ask for. A program that is not checked
cannot be only checked. -/
def Request.ofWords (words : List String) : Request :=
  match readWords {} words with
  | .error request => request
  | .ok a =>
    match a.contents? with
    | none => .misuse
    | some text =>
      if a.isUnchecked && a.isCheckOnly then .misuse
      else
        .execute a.isFile a.isCheckOnly
          { isChecked := !a.isUnchecked, maxDepth := a.maxDepth?.getD ({} : Options).maxDepth }
          text

/-- The fuel of an invocation, more than any program uses up in practice. -/
def fuel : Nat := 1000000000000000000

/-- Some lines as one text. -/
def unlines (lines : List String) : String :=
  String.join (lines.map (· ++ "\n"))

/-- The reply to a failure. -/
def failed (output : List String) (errors : List String) : Reply :=
  ⟨1, unlines output, unlines errors⟩

/-- The reply to a program that is only checked. -/
def replyToCheck (source : String) : Reply :=
  match Program.ofSource? source with
  | .error fault => failed [] [fault.message]
  | .ok program =>
    match program.check fuel fuel with
    | .ok [] => ⟨0, "", ""⟩
    | .ok problems => failed [] (problems.map (·.message))
    | .error _ => failed [] ["The check was given up."]

/-- The reply to a program that is run. -/
def replyToRun (options : Options) (source : String) : Reply :=
  match Execution.ofSource options fuel source with
  | some ⟨output, none⟩ => ⟨0, unlines output, ""⟩
  | some ⟨output, some failure⟩ => failed output [failure.message]
  | none => failed [] ["The run was given up."]

/-- The summary of the options. -/
def usage : String :=
  "Usage: tslite [OPTIONS] <CONTENTS>\n\n" ++
  "Options:\n" ++
  "  -f, --file               Takes the contents as the path of a file\n" ++
  "      --unchecked          Runs the program without checking it first\n" ++
  "      --check-only         Only checks the program\n" ++
  "      --max-depth <NUMBER> Stops calls nested deeper than this [default: 128]\n" ++
  "  -v, --verbose            Is accepted and changes nothing\n" ++
  "  -h, --help               Prints this summary\n" ++
  "  -V, --version            Prints the version\n"

/-- The reply to a request, given what is in the file it names, none if that
cannot be read. -/
def Request.reply (contents? : Option String) : Request → Reply
  | .version => ⟨0, "tslite 0.1.0\n", ""⟩
  | .help => ⟨0, usage, ""⟩
  | .misuse => ⟨2, "", usage⟩
  | .execute isFile isCheckOnly options text =>
    let source? := if isFile then contents? else some text
    match source? with
    | none =>
      failed [] ["Failed to read the input file '" ++ text ++
        "'. Perhaps this file does not exist?"]
    | some source => if isCheckOnly then replyToCheck source else replyToRun options source

/-- The file that a request names. -/
def Request.file? : Request → Option String
  | .execute true _ _ text => some text
  | _ => none

end TypedScript.CommandLine
