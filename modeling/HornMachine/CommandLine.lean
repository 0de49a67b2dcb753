import HornMachine.Machine.File
import HornMachine.Machine.Listing

/-!
# The command line

Options and one program file, in any order. An option takes its value from
behind `=` or from the next argument, which must not look like an option itself.
Every option may be given once. A session prints the listing if it was asked for
and then a text per answer; when only counting, the first few answers and the
total.
-/
namespace HornMachine.CommandLine

structure Options where
  listing : Bool := false
  count : Bool := false
  maxAnswers : Option Nat := none
  indexThreshold : Option Nat := none
  noIndex : Bool := false
  file : Option String := none
deriving DecidableEq, Repr

inductive Request
  | run (o : Options) (file : String)
  | help
  | misuse
deriving DecidableEq, Repr

/-- A decimal size of at most 64 bits, with or without a plus sign. -/
def size? (text : String) : Option Nat :=
  let digits :=
    match text.toList with
    | '+' :: cs => cs
    | cs => cs
  match digits with
  | [] => none
  | _ =>
    match Reader.decimal? digits with
    | some n => if n ≤ maxSize then some n else none
    | none => none

/-- Name and value of a long option, given without its dashes. -/
def splitValue (cs : List Char) : String × Option String :=
  match cs.dropWhile (· ≠ '=') with
  | [] => (String.ofList cs, none)
  | _ :: value => (String.ofList (cs.takeWhile (· ≠ '=')), some (String.ofList value))

/-- Arguments that start with a dash are options, a lone dash excepted. -/
def looksLikeOption (arg : String) : Bool :=
  match arg.toList with
  | '-' :: _ :: _ => true
  | _ => false

namespace Options

def addFile (o : Options) (file : String) : Option Options :=
  if file = "" ∨ o.file.isSome then none else some { o with file := some file }

def addFlag (o : Options) (name : String) : Option Options :=
  if name = "listing" then
    if o.listing then none else some { o with listing := true }
  else if name = "count" then
    if o.count then none else some { o with count := true }
  else if name = "no-index" then
    if o.noIndex then none else some { o with noIndex := true }
  else none

def takesValue (name : String) : Bool := name = "max-answers" || name = "index-threshold"

def addValue (o : Options) (name value : String) : Option Options :=
  match size? value with
  | none => none
  | some n =>
    if name = "max-answers" then
      if o.maxAnswers.isSome then none else some { o with maxAnswers := some n }
    else if name = "index-threshold" then
      if o.indexThreshold.isSome then none else some { o with indexThreshold := some n }
    else none

/-- The request once all arguments are read. -/
def request (o : Options) : Request :=
  match o.file with
  | none => .misuse
  | some file => if o.noIndex && o.indexThreshold.isSome then .misuse else .run o file

def settings (o : Options) : Settings :=
  if o.noIndex then .withoutIndex
  else match o.indexThreshold with
    | some n => { indexThreshold := n }
    | none => {}

end Options

/-- Arguments behind `--` are files. -/
def parseFiles : Options → List String → Request
  | o, [] => o.request
  | o, file :: rest =>
    match o.addFile file with
    | some o => parseFiles o rest
    | none => .misuse

def parseFrom : Options → List String → Request
  | o, [] => o.request
  | o, arg :: rest =>
    match arg.toList with
    | ['-', '-'] => parseFiles o rest
    | '-' :: '-' :: cs =>
      match splitValue cs, rest with
      | ("help", none), _ => .help
      | (name, some value), rest =>
        match o.addValue name value with
        | some o => parseFrom o rest
        | none => .misuse
      | (name, none), rest =>
        if Options.takesValue name then
          match rest with
          | [] => .misuse
          | value :: rest =>
            if looksLikeOption value then .misuse
            else match o.addValue name value with
              | some o => parseFrom o rest
              | none => .misuse
        else
          match o.addFlag name with
          | some o => parseFrom o rest
          | none => .misuse
    | '-' :: 'h' :: _ => .help
    | '-' :: _ :: _ => .misuse
    | _ =>
      match o.addFile arg with
      | some o => parseFrom o rest
      | none => .misuse
termination_by _ args => args.length

def parse (args : List String) : Request := parseFrom {} args

/-- Answers shown when only counting. -/
def shownAnswers : Nat := 5

/-- A loaded program being run. -/
structure Session where
  options : Options
  machine : Machine
  /-- Answers so far. -/
  total : Nat := 0

namespace Session

def start (o : Options) (file : ProgramFile) : Loading Session := do
  return { options := o, machine := ← Machine.ofFile o.settings file }

/-- What is printed before the first answer. -/
def opening (s : Session) : Except Halt String :=
  if s.options.listing then s.machine.listing else .ok ""

/-- What is printed for the next answer. -/
def answerText (s : Session) (t : Term) : String :=
  if !s.options.count then t.print ++ "\n"
  else if s.total < shownAnswers then
    "[" ++ s.total.repr ++ "] *** ANSWER=" ++ t.print ++ "\n"
  else ""

/-- What is printed after the last answer. -/
def closing (s : Session) : String :=
  if s.options.count then
    (if shownAnswers < s.total then "...\n" else "") ++
      "TOTAL ANSWERS=" ++ s.total.repr ++ "\n"
  else ""

def limitReached (s : Session) : Bool :=
  match s.options.maxAnswers with
  | some n => n ≤ s.total
  | none => maxSize ≤ s.total

/-- Text to print next, and the session after it unless it is over. -/
def next (s : Session) (fuel : Nat) : Except Halt (String × Option Session) :=
  if s.limitReached then .ok (s.closing, none)
  else
    match s with
    | ⟨options, machine, total⟩ => do
      match ← machine.ask fuel with
      | (none, machine) => return (closing ⟨options, machine, total⟩, none)
      | (some t, machine) =>
        let text := answerText ⟨options, machine, total⟩ t
        return (text, some ⟨options, machine, total + 1⟩)

end Session

/-- Status and output of a finished run. -/
structure Report where
  status : Nat
  stdout : String := ""
  stderr : String := ""
deriving DecidableEq, Repr

/-- Status of a run that reached outside its heap. -/
def haltStatus : Nat := 101

def loadFailure (file : String) (e : LoadError) : Report :=
  { status := 1, stderr := "loading " ++ file ++ ": " ++ e.message ++ "\n" }

/-- Run a session to its end, behind the text printed so far. -/
def transcript (fuel : Nat) : Nat → Session → String → Except Halt Report
  | 0, _, _ => .error .unfinished
  | n + 1, s, out =>
    match s.next fuel with
    | .ok (text, none) => .ok { status := 0, stdout := out ++ text }
    | .ok (text, some s) => transcript fuel n s (out ++ text)
    | .error .unfinished => .error .unfinished
    | .error _ => .ok { status := haltStatus, stdout := out }

/-- The whole run on a program file; `unfinished` when the fuel does not suffice. -/
def runFile (fuel : Nat) (o : Options) (name : String) (file : ProgramFile) :
    Except Halt Report :=
  match Session.start o file with
  | .error .unfinished => .error .unfinished
  | .error _ => .ok { status := haltStatus }
  | .ok (.error e) => .ok (loadFailure name e)
  | .ok (.ok s) =>
    match s.opening with
    | .error .unfinished => .error .unfinished
    | .error _ => .ok { status := haltStatus }
    | .ok text => transcript fuel fuel s text

end HornMachine.CommandLine
