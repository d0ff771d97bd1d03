import LoopNest.CommandLine.Report
/-!
# The command

Reads a problem file and writes its schedule. The exit code is 2 for a bad command line and 1 for
any later failure, after which nothing has been written to the output.
-/

namespace LoopNest.CommandLine

def usage : String :=
  "Usage: loopnest [OPTIONS] <INPUT>\n\n" ++
  "Options:\n" ++
  "  -o, --output <OUTPUT>        write the schedule to a file\n" ++
  "      --no-fusion              keep every equation in its own loop nest\n" ++
  "      --no-vectorize           never mark loops for vectors\n" ++
  "      --default-factor <N>     stride of conditional dimensions without one\n" ++
  "      --emit-program           write the program to the diagnostic output\n" ++
  "      --trace                  also write the executed instances\n" ++
  "      --bind <NAME=VALUE>      a value for --trace\n" ++
  "  -h, --help                   write this text\n" ++
  "  -V, --version                write the version\n"

/-- Runs and answers with the exit code. -/
def execute (a : Arguments) : IO UInt32 := do
  let source ← IO.FS.readFile a.input
  let r := report a source
  IO.eprint r.diagnostics
  match r.result with
  | .error e =>
    IO.eprintln ("Error: " ++ e.message)
    return 1
  | .ok text =>
    match a.output? with
    | some path => IO.FS.writeFile path text
    | none => IO.print text
    return 0

end LoopNest.CommandLine

open LoopNest.CommandLine in
def main (args : List String) : IO UInt32 := do
  match parse args with
  | .error e =>
    IO.eprintln ("error: " ++ e.message)
    return 2
  | .ok .help =>
    IO.print usage
    return 0
  | .ok .version =>
    IO.println "loopnest 0.1.0"
    return 0
  | .ok (.run a) =>
    try execute a
    catch e =>
      IO.eprintln ("Error: " ++ toString e)
      return 1
