import WordMachine.Cli.Arguments
import WordMachine.Cli.Files
import WordMachine.Cli.Path
import WordMachine.Cli.Report
import WordMachine.Wire.Trace

/-! The commands, over any access to files. -/
namespace WordMachine.Cli

def usage : String := String.join <| (· ++ "\n") <$>
  ["Usage: cpu16 <command> [options]",
   "",
   "Commands:",
   "  build <input> [-o <output>] [--verbose] [--json]  Assemble source to binary",
   "  run   <input> [options]                           Assemble and execute source",
   "",
   "Build options:",
   "  -o, --output <file>     Output file path (default: input stem + .bin)",
   "  -v, --verbose           Print listing to stderr",
   "      --json              Print \x7b\"program\": [...]\x7d or \x7b\"error\": ...\x7d on stdout",
   "",
   "Run options:",
   "      --input <value>     Queue one console input value (repeatable)",
   "      --inputs <a,b,...>  Queue comma-separated console input values",
   "      --max-steps <n>     Step bound (default 1000)",
   "      --memory-words <n>  Data memory size in words (default 256)",
   "      --json              Print the run result as JSON",
   "",
   "  -h, --help              Show this help message",
   "",
   "Examples:",
   "  cpu16 build counter.asm -o counter.bin",
   "  cpu16 run echo.asm --inputs 3,$10 --max-steps 200"]

def failure (message : String) : Report := { code := 1, stderr := "error: " ++ message ++ "\n" }

/-- As JSON the error is a single message; otherwise it shows the line it is about. -/
def sourceFailure (e : Source.Error) (source : String) (json : Bool) : Report :=
  if json then
    { code := 1, stdout := (Json.obj [("error", .str e.message)]).pretty ++ "\n" }
  else failure (e.render source)

/-- Where a build writes: with `--json` only where it is told to. -/
def BuildArgs.target? (args : BuildArgs) : Option String :=
  if args.json && args.output?.isNone then none
  else some (args.output?.getD (Path.defaultOutput args.input))

variable {m : Type → Type} [Monad m] (files : Files m)

/-- Reads and assembles a file and goes on with the result. -/
def withAssembly (input : String) (json : Bool) (k : Source.Assembly → m Report) : m Report := do
  match ← files.readText input with
  | .error e => return failure ("failed to read " ++ input ++ ": " ++ e)
  | .ok source =>
    match Source.assemble source with
    | .error e => return sourceFailure e source json
    | .ok assembly => k assembly

def build (args : BuildArgs) : m Report :=
  withAssembly files args.input args.json fun assembly => do
    let program := assembly.program
    let json :=
      if args.json then (Json.obj [("program", Wire.program program)]).pretty ++ "\n" else ""
    match args.target? with
    | none => return { stdout := json }
    | some target =>
      match ← files.writeBytes target program.bytes with
      | .error e => return { failure ("failed to write output: " ++ e) with stdout := json }
      | .ok () =>
        return {
          stdout :=
            if args.json then json
            else
              "Assembled " ++ args.input ++ " (" ++ program.size.repr ++ " bytes) -> " ++ target ++
                "\n"
          stderr := if args.verbose then listing assembly else "" }

/-- A run that ends in a fault fails, and the JSON result says so by itself. -/
def execute (args : RunArgs) : m Report :=
  withAssembly files args.input args.json fun assembly => do
    let result := run assembly.program args.inputs args.config
    return {
      code := if result.error.isSome then 1 else 0
      stdout := if args.json then (Wire.result result).pretty ++ "\n" else runTable result
      stderr :=
        match result.error with
        | some cause => if args.json then "" else "error: " ++ cause.message ++ "\n"
        | none => "" }

/-- The whole command line. Help that was asked of a command is printed, but counts as a failure. -/
def respond (args : List String) : m Report :=
  match Invocation.parse args with
  | .ok .help => return { stdout := usage ++ "\n" }
  | .ok (.command (.build args)) => build files args
  | .ok (.command (.run args)) => execute files args
  | .error .helpRequested => return { code := 1, stdout := usage ++ "\n" }
  | .error e => return { code := 1, stderr := "error: " ++ e.message ++ "\n" ++ usage ++ "\n" }

end WordMachine.Cli
