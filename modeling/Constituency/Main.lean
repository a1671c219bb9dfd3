import Constituency.CommandLine.Run

/-!
# The program

Reads the files that the arguments name, runs, and writes the files of the run.
-/

namespace Constituency.CommandLine

/-- How the program is used. -/
def usage : String := "Usage: constituency [OPTIONS] <GOLD> <TRAIN> <EXPERIMENT>

Options:
  -m, --markovization <MARKOVIZATION>
  -t, --threads <THREADS>
      --config <CONFIG>
      --summary
  -h, --help"

/-- Reads the files that can be read. -/
def readFiles (paths : List String) : IO (List (String × ByteArray)) :=
  paths.filterMapM fun (path : String) => do
    match ← (IO.FS.readBinFile path).toBaseIO with
    | .ok bytes => return some (path, bytes)
    | .error _ => return none

/-- Writes files up to the first one that cannot be written. -/
def writeFiles : List (String × String) → IO UInt32
  | [] => return 0
  | (path, text) :: rest => do
    match ← (IO.FS.writeFile path text).toBaseIO with
    | .ok _ => writeFiles rest
    | .error _ =>
      IO.eprintln s!"Error: {unwritableMessage path}"
      return 1

end Constituency.CommandLine

open Constituency CommandLine in
/-- Trains, parses and writes; the exit code is two for wrong arguments and one for a failure. -/
def main (arguments : List String) : IO UInt32 := do
  match Arguments.read arguments with
  | .error .help =>
    IO.println usage
    return 0
  | .error .usage =>
    IO.eprintln usage
    return 2
  | .ok asked =>
    let files ← readFiles (asked.gold :: asked.training :: asked.config.toList)
    let started ← IO.monoMsNow
    match run (fun path => files.lookup path) asked with
    | .error error =>
      IO.eprintln s!"Error: {error.message}"
      return 1
    | .ok success =>
      let code ← writeFiles success.files
      let finished ← IO.monoMsNow
      if code = 0 && asked.summary then
        IO.println (success.report.text (success.report.threads.getD 1) (finished - started))
      return code
