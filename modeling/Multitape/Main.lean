import Multitape.Command.Execute

/-! The program: it carries out the command that its arguments name, on the files of the
system. -/
namespace Multitape

namespace Files

def faultOf : IO.Error → FileFault
  | .noFileOrDirectory .. => .missing
  | .inappropriateType _ 21 _ => .isFolder
  | .inappropriateType _ 20 _ => .notFolder
  | cause => .other cause.toString

def attempt {α : Type} (call : IO α) : IO (Except FileFault α) := do
  return (← call.toBaseIO).mapError faultOf

instance : Files IO where
  isPresent path := do
    match ← attempt (IO.FS.realPath path) with
    | .ok found => found.pathExists
    | .error _ => return false
  read path := do return (← attempt (IO.FS.readBinFile path)).bind textOf
  write path text := attempt (IO.FS.writeFile path text)
  names path := attempt do
    let entries ← (← IO.FS.realPath path).readDir
    let files ← entries.filterM fun entry => return !(← entry.path.isDir)
    return (files.map (·.fileName)).toList

end Files

namespace Command

def usage : List String :=
  ["Usage:",
    "  multitape run MACHINE [INPUT] [-t] [-m STEPS] [-r] [-c] [-d] [-j]",
    "  multitape compile MACHINE [-t] [-r] [-p] [-o FILE]",
    "  multitape check MACHINE [-t]",
    "  multitape list",
    "",
    "MACHINE is a file, or the key or name of a machine in the catalog.",
    "",
    "  -t, --tokens           symbols of several characters, with bars between them",
    "  -m, --max-steps STEPS  the step bound, 10000 if not given",
    "  -r, --right-infinite   tapes that end at the left of the input",
    "  -c, --compiled         run the machine that the machine compiles to",
    "  -d, --trace            print every step",
    "  -j, --json             print the outcome as JSON",
    "  -p, --phases           list what the states stand for",
    "  -o, --output FILE      write to a file"]

def Stop.report : Stop → Report
  | .refused => { status := 2, messages := lines usage }
  | .asked => { output := lines usage }

end Command
end Multitape

open Multitape in
def main (arguments : List String) : IO UInt32 := do
  let report ← match Command.ofArguments arguments with
    | .ok command => command.execute
    | .error stop => pure stop.report
  (← IO.getStdout).putStr report.output
  (← IO.getStderr).putStr report.messages
  return report.status.toUInt32
