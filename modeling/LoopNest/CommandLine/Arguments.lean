import LoopNest.Options
import LoopNest.CommandLine.Binding
/-!
# Arguments

One input path and options in any order. An option with a value takes it from the same argument,
after an equals sign, or from the next one, which then must not look like an option; the short
option takes it also without the equals sign. Flags and options of one value come at most once.
After `--` everything is a path.
-/

namespace LoopNest.CommandLine

/-- Why arguments are refused. -/
inductive UsageError where
  | unknown (argument : String)
  | missingValue (option : String)
  | badValue (option value : String)
  | surplusValue (option : String)
  | repeated (option : String)
  | surplusInput (path : String)
  | missingInput
deriving DecidableEq, Repr

def UsageError.message : UsageError → String
  | .unknown argument => "unexpected argument '" ++ argument ++ "'"
  | .missingValue option => "a value is required for '" ++ option ++ "'"
  | .badValue option value => "invalid value '" ++ value ++ "' for '" ++ option ++ "'"
  | .surplusValue option => "unexpected value for '" ++ option ++ "'"
  | .repeated option => "the argument '" ++ option ++ "' cannot be used multiple times"
  | .surplusInput path => "unexpected argument '" ++ path ++ "'"
  | .missingInput => "an input file is required"

inductive Flag where
  | noFusion
  | noVectorize
  | emitProgram
  | trace
deriving DecidableEq, Repr

def Flag.name : Flag → String
  | noFusion => "no-fusion"
  | noVectorize => "no-vectorize"
  | emitProgram => "emit-program"
  | trace => "trace"

/-- Options that take a value. -/
inductive ValueOption where
  | output
  | defaultFactor
  | bind
deriving DecidableEq, Repr

/-- What an argument asks for. -/
inductive Request where
  | flag (f : Flag)
  | value (o : ValueOption) (text : String)
  | input (path : String)
  | help
  | version

/-- An option by its name. -/
inductive Named where
  | flag (f : Flag)
  | value (o : ValueOption)
  | help
  | version

def named? : String → Option Named
  | "no-fusion" => some (.flag .noFusion)
  | "no-vectorize" => some (.flag .noVectorize)
  | "emit-program" => some (.flag .emitProgram)
  | "trace" => some (.flag .trace)
  | "output" => some (.value .output)
  | "default-factor" => some (.value .defaultFactor)
  | "bind" => some (.value .bind)
  | "help" => some .help
  | "version" => some .version
  | _ => none

/-- An argument that would be read as an option rather than as a value. -/
def looksLikeOption (arg : String) : Bool :=
  match arg.toList with
  | '-' :: _ :: _ => true
  | _ => false

/-- The value of an option from the next argument. -/
def nextValue (option : String) : List String → Except UsageError (String × List String)
  | [] => .error (.missingValue option)
  | arg :: rest => if looksLikeOption arg then .error (.missingValue option) else .ok (arg, rest)

/-- A long option, by what follows the two dashes, and the arguments left. -/
def longOption (text : List Char) (rest : List String) :
    Except UsageError (Request × List String) := do
  let (name, value) :=
    match splitEquals? text with
    | some (left, right) => (String.ofList left, some (String.ofList right))
    | none => (String.ofList text, none)
  match named? name, value with
  | none, _ => throw (.unknown ("--" ++ name))
  | some (.flag f), none => return (.flag f, rest)
  | some .help, none => return (.help, rest)
  | some .version, none => return (.version, rest)
  | some (.value o), some v => return (.value o v, rest)
  | some (.value o), none =>
    let (v, rest) ← nextValue name rest
    return (.value o v, rest)
  | some _, some _ => throw (.surplusValue name)

/-- A short option, by what follows the dash, and the arguments left. -/
def shortOption (text : List Char) (rest : List String) :
    Except UsageError (Request × List String) := do
  match text with
  | ['o'] =>
    let (v, rest) ← nextValue "output" rest
    return (.value .output v, rest)
  | 'o' :: '=' :: value => return (.value .output (String.ofList value), rest)
  | 'o' :: value => return (.value .output (String.ofList value), rest)
  | 'h' :: _ => return (.help, rest)
  | 'V' :: _ => return (.version, rest)
  | text => throw (.unknown ("-" ++ String.ofList text))

/-- What the first of some arguments asks for, and the arguments left. -/
def next (arg : String) (rest : List String) : Except UsageError (Request × List String) :=
  match arg.toList with
  | '-' :: '-' :: text => longOption text rest
  | '-' :: c :: text => shortOption (c :: text) rest
  | _ => .ok (.input arg, rest)

/-- A run of the program as asked for. -/
structure Arguments where
  input : String
  output? : Option String
  options : Options
  emitProgram : Bool
  trace : Bool
  bindings : List (String × Int)
deriving DecidableEq, Repr

/-- What arguments can ask for besides a run. -/
inductive Command where
  | run (arguments : Arguments)
  | help
  | version

/-- Values given so far. -/
structure Given where
  inputs : List String
  outputs : List String
  factors : List Int
  flags : List Flag
  bindings : List (String × Int)

/-- A value that must be a path: anything but nothing. -/
def path (option value : String) : Except UsageError String :=
  if value = "" then .error (.missingValue option) else .ok value

/-- The values with those of one more request. -/
def Given.add (g : Given) : Request → Except UsageError Given
  | .input p => do
    let p ← path "input" p
    if g.inputs.isEmpty then return ⟨[p], g.outputs, g.factors, g.flags, g.bindings⟩
    else throw (.surplusInput p)
  | .flag f =>
    if g.flags.contains f then .error (.repeated f.name)
    else .ok ⟨g.inputs, g.outputs, g.factors, f :: g.flags, g.bindings⟩
  | .value .output v => do
    let v ← path "output" v
    if g.outputs.isEmpty then return ⟨g.inputs, [v], g.factors, g.flags, g.bindings⟩
    else throw (.repeated "output")
  | .value .defaultFactor v =>
    match integer? v.toList with
    | none => .error (.badValue "default-factor" v)
    | some k =>
      if g.factors.isEmpty then .ok ⟨g.inputs, g.outputs, [k], g.flags, g.bindings⟩
      else .error (.repeated "default-factor")
  | .value .bind v =>
    match binding v with
    | .ok pair => .ok ⟨g.inputs, g.outputs, g.factors, g.flags, g.bindings ++ [pair]⟩
    | .error _ => .error (.badValue "bind" v)
  | .help => .ok g
  | .version => .ok g

/-- The run that values ask for. -/
def Given.arguments (g : Given) : Except UsageError Arguments :=
  match g.inputs with
  | [] => .error .missingInput
  | input :: _ =>
    .ok ⟨input, g.outputs.head?,
      ⟨g.factors.headD 1, !g.flags.contains .noFusion, !g.flags.contains .noVectorize⟩,
      g.flags.contains .emitProgram, g.flags.contains .trace, g.bindings⟩

/-- What up to `n` arguments ask for, after values given before them. -/
def parseFrom : Nat → Given → List String → Except UsageError Command
  | n + 1, g, arg :: rest => do
    if arg = "--" then
      let g ← rest.foldlM (fun g path => g.add (.input path)) g
      return .run (← g.arguments)
    let (request, rest) ← next arg rest
    match request with
    | .help => return .help
    | .version => return .version
    | request => parseFrom n (← g.add request) rest
  | _, g, _ => do return .run (← g.arguments)

/-- What a command line asks for. -/
def parse (args : List String) : Except UsageError Command :=
  parseFrom args.length ⟨[], [], [], [], []⟩ args

end LoopNest.CommandLine
