import SymVec.Bundle
import SymVec.CommandLine.Command
import SymVec.Exchange.TestCase
import SymVec.Json.Printer
import SymVec.Registry.Listing
import SymVec.TestCase.Assembly
import SymVec.TestCase.Listing

/-!
# Answers of commands

What a command prints, given the text of the file that it reads, and how it can fail.

* `Failure.exitCode` — 2 for a command line without meaning, and 1 for any other failure;
* `Command.answer` — what a command prints, given the text of its file;
* `runCommandLine` — the whole program but for its input and output.
-/

namespace SymVec

/-- Why a command prints nothing. -/
inductive Failure where
  | command (error : CommandError)
  /-- The file cannot be read as text. -/
  | unreadable (path : String)
  | notABundle (path : String)
  /-- The test vectors of a method cannot be decoded at all. -/
  | decoding (method : String) (cause : DecodeError)
  deriving DecidableEq, Repr

namespace Failure

/-- The text of a failure. -/
def message : Failure → String
  | command .usage => "usage: ktdecode [-v] decode BUNDLE [OPTIONS] | types BUNDLE"
  | command .expectedAlone => "--expected needs --predicate"
  | unreadable path => s!"read {path}"
  | notABundle path => s!"parse {path}"
  | decoding method _ => s!"decode test vectors of {method}"

/-- The texts of what caused the failure. -/
def causes : Failure → List String
  | decoding _ cause => [cause.message]
  | _ => []

/-- The exit code of a program that ends with the failure. -/
def exitCode : Failure → Nat
  | command .usage => 2
  | _ => 1

end Failure

/-- What a command prints, and what it warns of. -/
structure Answer where
  text : String
  warnings : List Warning := []

namespace Command

/-- The name and version of the program. -/
def versionText : String := "ktdecode 0.1.0\n"

/-- The file that a command reads. -/
def file? : Command → Option String
  | version => none
  | decode path _ => some path
  | types path => some path

/-- The bundle in a file with the given contents. -/
def bundle (path : String) (contents : Option String) : Except Failure Bundle :=
  match contents with
  | none => .error (.unreadable path)
  | some text =>
    match Bundle.read? text with
    | some bundle => .ok bundle
    | none => .error (.notABundle path)

/-- The limits that hold where some are replaced. -/
def limits (options : DecodeOptions) (config : Config) : Config where
  maxDepth := options.maxDepth.getD config.maxDepth
  stdinCapacity := options.stdinCapacity.getD config.stdinCapacity

/-- Test cases as text, each with an empty line after it. -/
def casesText (method : String) (cases : List TestCase) : String :=
  -- vectors may all be dropped or given up, which is no failure
  if cases.isEmpty then s!"No test cases for {method}\n"
  else String.join (cases.map fun c => c.listing ++ "\n")

/-- Test cases as indented JSON. -/
def casesJson (cases : List TestCase) : String :=
  (Json.ofList TestCase.toJson cases).pretty 0 ++ "\n"

/-- The decoded test cases of a bundle. -/
def decodeBundle (options : DecodeOptions) (b : Bundle) : Except Failure Answer :=
  let assembly : TestCase.Assembly :=
    { registry := b.types
      config := limits options (b.config.getD {})
      method := b.method
      filters := options.filters }
  match assembly.assemble b.vectors with
  | (.error cause, _) => .error (.decoding b.method.name cause)
  -- warnings are kept only if there is an answer
  | (.ok cases, warnings) =>
    .ok ⟨if options.json then casesJson cases else casesText b.method.name cases, warnings⟩

/-- The layouts of a bundle. -/
def typesText (b : Bundle) : String :=
  let text := b.types.listing
  if text.isEmpty then "No records or enums\n" else text

/-- **Answer** of a command, given the contents of its file if that can be read as text. -/
def answer (command : Command) (contents : Option String) : Except Failure Answer :=
  match command with
  | version => .ok ⟨versionText, []⟩
  | decode path options => (bundle path contents).bind (decodeBundle options)
  | types path => (bundle path contents).map fun b => ⟨typesText b, []⟩

end Command

/-- **Run** of a command line, where `contents` tells what is in a file. -/
def runCommandLine (contents : String → Option String) (arguments : List String) :
    Except Failure Answer :=
  match Command.parse arguments with
  | .error e => .error (.command e)
  | .ok command => command.answer (command.file?.bind contents)

end SymVec
