import TensorGraph.CommandLine.Arguments
import TensorGraph.Program.Codec
import TensorGraph.Program.Text

/-!
What the command does: it reads a program, runs a pipeline on it and writes the result. All of it is
a function of the arguments and of the texts of files; what it prints and the file it writes are its
result.
-/
namespace TensorGraph.CommandLine

structure Response where
  exit : Nat
  stdout : String := ""
  stderr : String := ""
  file : Option (String × String) := none
deriving DecidableEq, Repr

inductive RunError where
  | unreadable (path : String)
  | notProgram (path : String)
  | notBuilt (path : String) (cause : GraphError)
  | badConfig (path : String)
  | pipeline (cause : PipelineError)
  | stopped (cause : PipelineError)
  | unwritable (path : String)
  | broken (fault : Fault)
deriving DecidableEq, Repr

namespace RunError

def message : RunError → String
  | unreadable path => s!"failed to read {path}"
  | notProgram path => s!"{path} is not a program record"
  | notBuilt path cause => s!"failed to rebuild {path}: " ++ cause.message
  | badConfig path => s!"invalid pipeline in {path}"
  | pipeline cause => cause.message
  | stopped cause => "optimization failed: " ++ cause.message
  | unwritable path => s!"failed to write {path}"
  | broken fault => fault.message?.getD "the computation broke down"

/-- A breakdown has an exit code of its own. -/
def exit : RunError → Nat
  | broken _ => 101
  | _ => 1

def response (e : RunError) : Response :=
  { exit := e.exit, stderr := "Error: " ++ e.message ++ "\n" }

def ofPipeline (context : PipelineError → RunError) : PipelineFailure → RunError
  | .refused e => context e
  | .broken f => .broken f

end RunError

/-- Space in the sense of Unicode. -/
def isBlank (c : Char) : Bool :=
  let n := c.toNat
  (9 ≤ n && n ≤ 13) || (0x2000 ≤ n && n ≤ 0x200a) ||
    [0x20, 0x85, 0xa0, 0x1680, 0x2028, 0x2029, 0x202f, 0x205f, 0x3000].contains n

def trim (s : String) : String :=
  String.ofList ((s.toList.dropWhile isBlank).reverse.dropWhile isBlank).reverse

def readProgram (files : String → Option String) (path : String) : Except RunError Program :=
  match files path with
  | none => .error (.unreadable path)
  | some text =>
    match Decode.document ProgramRecord.decode text with
    | .error (.broken f) => .error (.broken f)
    | .error _ => .error (.notProgram path)
    | .ok record =>
      let built := record.load
      match built.result with
      | .ok () => .ok built.state
      | .error (.refused e) => .error (.notBuilt path e)
      | .error (.broken f) => .error (.broken f)

/-- The pipeline that the arguments ask for: that of a configuration, of a list of passes, or of a
level. -/
def choosePipeline (files : String → Option String) (a : Arguments) : Except RunError Pipeline := do
  match a.config, a.passes with
  | some path, _ =>
    match files path with
    | none => .error (.unreadable path)
    | some text =>
      match Config.parse? text with
      | none => .error (.badConfig path)
      | some config => (Pipeline.ofConfig .builtin config).mapError .pipeline
  | none, some passes =>
    (Pipeline.ofConfig .builtin { passes := passes.map trim }).mapError .pipeline
  | none, none => .ok (Pipeline.ofLevel (a.level.getD .standard))

def optimize (files : String → Option String) (a : Arguments) (input : String) :
    Except RunError Response := do
  let program ← readProgram files input
  let pipeline ← choosePipeline files a
  let run := pipeline.run.run program
  let _ ← run.result.mapError (RunError.ofPipeline .stopped)
  let record ← run.state.record.mapError RunError.broken
  let text := record.toJson.pretty
  return {
    exit := 0
    stdout := if a.output.isSome then "" else text ++ "\n"
    stderr := if a.emitListing then run.state.listing ++ "\n" else ""
    file := a.output.map fun path => (path, text) }

def helpText : String :=
  "Command-line driver that runs tgraph pass schedules over serialized programs\n\n" ++
  "Usage: tgraph [OPTIONS] [INPUT]\n\n" ++
  "Arguments:\n" ++
  "  [INPUT]  Input program (JSON program record)\n\n" ++
  "Options:\n" ++
  "      --passes <PASSES>        Comma-separated pass schedule, e.g.\n" ++
  "                               `eliminate_pad,dead_code_elimination`\n" ++
  "      --config <CONFIG>        Pipeline configuration file (JSON)\n" ++
  "      --opt-level <OPT_LEVEL>  Optimization level used when no schedule is given: " ++
  "0, 1, or 2\n" ++
  "                               [default: 1]\n" ++
  "  -o, --output <OUTPUT>        Output path for the optimized program (default: stdout)\n" ++
  "      --emit-ir                Dump the optimized IR to stderr\n" ++
  "      --list-passes            List registered passes and exit\n" ++
  "  -h, --help                   Print help\n" ++
  "  -V, --version                Print version\n"

def versionText : String :=
  "tgraph-cli 0.1.0\n"

def respond (files : String → Option String) : Request → Response
  | .help => { exit := 0, stdout := helpText }
  | .version => { exit := 0, stdout := versionText }
  | .run a =>
    if a.listPasses then
      { exit := 0, stdout := String.join (Registry.builtin.names.map (· ++ "\n")) }
    else match a.input with
      | none => { exit := 1, stderr := "Error: no input program given\n" }
      | some input =>
        match optimize files a input with
        | .ok response => response
        | .error e => e.response

/-- Answers a command line, given the texts of files. -/
def execute (files : String → Option String) (args : List String) : Response :=
  match parse args with
  | .ok request => respond files request
  | .error e => { exit := 2, stderr := "error: " ++ e.message ++ "\n" }

/-- The files that the answer depends on. -/
def filesRead (args : List String) : List String :=
  match parse args with
  | .ok (.run a) => a.input.toList ++ a.config.toList
  | _ => []

end TensorGraph.CommandLine
