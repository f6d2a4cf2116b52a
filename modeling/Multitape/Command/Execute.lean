import Multitape.Command
import Multitape.Exchange
import Multitape.Finding
import Multitape.Library

/-! Carrying out a command: what it writes to its two outputs, and whether it succeeds. -/
namespace Multitape

namespace Command

structure Report where
  status : Nat := 0
  output : String := ""
  messages : String := ""
  deriving DecidableEq, Repr

def lines (texts : List String) : String := String.join (texts.map (· ++ "\n"))

def Report.failed (text : String) : Report := { status := 1, messages := lines ["Error: " ++ text] }

abbrev Attempt := Except String

def Report.of : Attempt Report → Report
  | .ok report => report
  | .error text => .failed text

def tapeMode (rightInfinite : Bool) : TapeMode :=
  if rightInfinite then .rightInfinite else .biInfinite

section
variable {S : Type} [Symbol S] [DecidableEq S]

def traceLine (run : Run S) : String :=
  let tapes := ", ".intercalate (run.tapes.map Tape.render)
  let heads := ", ".intercalate (run.tapes.map (·.headIndex.repr))
  s!"Step: {run.steps}, State: {run.state.text}, Tapes: [{tapes}], Heads: [{heads}]"

def trace (asked : Bool) (run : Run S) : String :=
  if asked then lines ((run :: run.ahead).map traceLine) else ""

def outcomeText (json : Bool) (outcome : Outcome S) (output : String) : String :=
  if json then lines [(outcome.json output).pretty]
  else lines [s!"Verdict: {outcome.verdict.text}", s!"Steps: {outcome.steps}",
    s!"State: {outcome.state.text}", s!"Output: {output}"]

def reportRun (options : RunOptions) (config : Config) (machine : Machine S) (input : List S)
    (read : Outcome S → String) : Attempt Report := do
  let start ← (Run.start machine config input).mapError InputError.message
  let outcome := start.outcome
  return { output := outcomeText options.json outcome (read outcome)
           messages := trace options.trace start }

end

variable {S : Type} [Symbol S] [DecidableEq S]

def runMachine (options : RunOptions) (machine : Machine S) (sample : Option String) :
    Attempt Report := do
  let mode := tapeMode options.rightInfinite
  let config : Config := ⟨options.maxSteps.getD ({} : Config).maxSteps, mode⟩
  let input : List S := Symbol.split ((options.input.or sample).getD "")
  if options.compiled then
    let compiled ← (SingleTape.compile machine mode).mapError CompileError.message
    let encoded ← (compiled.encodeInput input).mapError InputError.message
    reportRun options config compiled.machine encoded fun outcome =>
      match outcome.tapes.head?.bind compiled.output? with
      | some output => Symbol.join output
      | none => "(no layout to decode)"
  else reportRun options config machine input Outcome.outputText

def compiledText (name : String) (options : CompileOptions) (machine : Machine S) :
    Attempt String := do
  let compiled ← (SingleTape.compile machine (tapeMode options.rightInfinite)).mapError
    CompileError.message
  let count := compiled.machine.stateCount
  let title := s!"# compiled from {name}: {compiled.sourceTapes} tapes, {count} states"
  let phases := compiled.phases.toList.zipIdx.map fun (phase, state) =>
    s!"# {state}: {phase.text}"
  return lines (title :: if options.phases then phases else []) ++ compiled.machine.text

def checkText {S : Type} [Symbol S] (machine : Machine S) : String :=
  match machine.findings with
  | [] => lines ["No findings."]
  | findings => lines (findings.map Finding.text)

def padRight (width : Nat) (text : String) : String :=
  text ++ "".pushn ' ' (width - text.length)

def padLeft (width : Nat) (text : String) : String :=
  "".pushn ' ' (width - text.length) ++ text

def infoLine (info : Catalog.Info) : String :=
  let entry := info.entry
  let title := s!"{padLeft 2 info.index.repr}  {padRight 20 entry.key} {entry.name}"
  let counts := s!"{info.tapes} tapes, {info.stateCount} states, {info.ruleCount} transitions"
  s!"{title} ({counts}), try: {entry.sample}"

def listText : Attempt String := do
  let infos ← ((List.range Catalog.entries.length).mapM Catalog.info?).mapError Failure.message
  return lines (infos.map infoLine)

end Command

namespace Command
variable {m : Type → Type} [Monad m] [Files m]

def withMachine (S : Type) [Symbol S] [DecidableEq S] (source : String)
    (next : Machine S → Option String → m (Attempt Report)) : m Report := do
  match ← Library.open? source with
  | .error cause => return .failed cause.message
  | .ok (machine, sample) => return .of (← next machine sample)

def compileTo {S : Type} [Symbol S] [DecidableEq S] (name : String)
    (options : CompileOptions) (machine : Machine S) : m (Attempt Report) := do
  match compiledText name options machine, options.output with
  | .error text, _ => return .error text
  | .ok text, none => return .ok { output := text }
  | .ok text, some path => match ← Files.write path text with
    | .ok () => return .ok {}
    | .error fault => return .error fault.text

def execute : Command → m Report
  | run source options =>
    if options.tokens then
      withMachine Token source fun machine sample => return runMachine options machine sample
    else withMachine Char source fun machine sample => return runMachine options machine sample
  | compile source options =>
    if options.tokens then withMachine Token source fun machine _ => compileTo source options machine
    else withMachine Char source fun machine _ => compileTo source options machine
  | check source tokens =>
    if tokens then
      withMachine Token source fun machine _ => return .ok { output := checkText machine }
    else withMachine Char source fun machine _ => return .ok { output := checkText machine }
  | list => return .of (listText.map fun text => { output := text })

end Command
end Multitape
