import OpenVariants.Config.Document
import OpenVariants.Scenario

/-! The command line: lists the scenarios and runs them. -/
namespace OpenVariants.CommandLine

/-- What is asked for. -/
inductive Job where
  | scenarios
  | run (name : String)
  | version

/-- What is asked for, and the file that the limits come from, if any. -/
structure Invocation where
  job? : Option Job := none
  configFile? : Option String := none

namespace Invocation

/-- The job of an invocation that has none yet. -/
def withJob (i : Invocation) (job : Job) : Option Invocation :=
  if i.job?.isSome then none else some {i with job? := some job}

def withConfig (i : Invocation) (file : String) : Invocation := {i with configFile? := some file}

/-- Options stand before or after the job. -/
def read (i : Invocation) : List String → Option Invocation
  | [] => some i
  | "--config" :: file :: rest => (i.withConfig file).read rest
  | "-c" :: file :: rest => (i.withConfig file).read rest
  | "scenarios" :: rest => do (← i.withJob .scenarios).read rest
  | "run" :: name :: rest => do (← i.withJob (.run name)).read rest
  | "version" :: rest => do (← i.withJob .version).read rest
  | _ => none

end Invocation

def title : String := "open-variants 0.1.0"

def usage : String := "usage: open-variants [--config FILE] (scenarios | run NAME | version)"

/-- A text and blanks up to a width. -/
def padded (width : Nat) (s : String) : String :=
  s ++ String.ofList (List.replicate (width - s.length) ' ')

/-- The scenarios, one on a line with its description. -/
def listing : List String :=
  Scenario.all.map fun s => s!"{padded 10 s.name} {s.description}"

/-- The result of a scenario as it is written, or what went wrong. -/
def outcome (name : String) (config : Config) : Except String String :=
  match Scenario.find? name with
  | none => .error s!"Unknown scenario: {name}"
  | some s =>
    match s.start config with
    | (.ok v, w) => .ok (w.heap.written v)
    | (.error (.fault f), _) => .error f.message
    | (.error .exhausted, _) => .error "the nesting is too deep"

/-- The lines that a job prints. -/
def Job.lines (config : Config) : Job → Except String (List String)
  | .scenarios => .ok listing
  | .run name =>
    match outcome name config with
    | .ok line => .ok [line]
    | .error message => .error s!"Failed to run: {name}: {message}"
  | .version => .ok [title]

/-- The limits from a file and from the environment. -/
def readConfig (file? : Option String) : IO (Option Config) := do
  let source? ← file?.mapM fun file => IO.FS.readFile file
  let config? := match source? with
    | some source => Config.ofDocument? source
    | none => some {}
  let override ← IO.getEnv Config.depthVariable
  return config?.map (·.withOverride override)

/-- Print what is asked for; the status tells whether that went well. -/
def serve (args : List String) : IO UInt32 := do
  let complain (message : String) : IO UInt32 := do
    IO.eprintln message
    return 1
  let some i := ({} : Invocation).read args | complain usage
  let some job := i.job? | complain usage
  let some config ← readConfig i.configFile? | complain "the configuration is malformed"
  match job.lines config with
  | .error message => complain message
  | .ok lines =>
    for line in lines do
      IO.println line
    return 0

end OpenVariants.CommandLine

def main (args : List String) : IO UInt32 := OpenVariants.CommandLine.serve args
