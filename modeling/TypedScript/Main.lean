import TypedScript.CommandLine

/-!
# The program

Reads the file that the command line names, if it names one, and prints the
reply.
-/

namespace TypedScript.CommandLine

/-- The text of a file, none if it cannot be read. -/
def readFile? (path : String) : IO (Option String) := do
  try
    return some (← IO.FS.readFile path)
  catch _ =>
    return none

/-- What is in the file that a request names. -/
def Request.contents? (request : Request) : IO (Option String) :=
  match request.file? with
  | some path => readFile? path
  | none => return none

end TypedScript.CommandLine

open TypedScript.CommandLine

/-- The entry point: prints the reply to the words of the command line. -/
def main (words : List String) : IO UInt32 := do
  let request := Request.ofWords words
  let reply := request.reply (← request.contents?)
  (← IO.getStdout).putStr reply.output
  (← IO.getStderr).putStr reply.errors
  return reply.code.toUInt32
