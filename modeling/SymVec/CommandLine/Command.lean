import SymVec.CommandLine.Argument
import SymVec.Method
import SymVec.Text.Integer
import SymVec.Word

/-!
# Commands

What a command line asks for: the decoded test cases of a bundle, a listing of its layouts, or the
version of the program. The option `-v` or `--verbose` may stand anywhere, as often as one likes.

* `Command.ofDecode`, `Command.ofTypes` — the subcommands with their arguments;
* `Command.parse` — what a whole command line asks for.
-/

namespace SymVec

/-- How the test cases of a bundle are to be decoded and shown. -/
structure DecodeOptions where
  /-- Whether the test cases are to be written as JSON. -/
  json : Bool := false
  filters : Filters := {}
  /-- Replaces the capacity of symbolic standard input. -/
  stdinCapacity : Option Nat := none
  /-- Replaces the limit on the nesting of records. -/
  maxDepth : Option Nat := none
  deriving DecidableEq, Repr

/-- What a command line asks for. -/
inductive Command where
  | version
  | decode (path : String) (options : DecodeOptions)
  | types (path : String)
  deriving DecidableEq, Repr

/-- What is wrong with a command line. -/
inductive CommandError where
  /-- It has no meaning. -/
  | usage
  /-- It has an expected value and nothing to compare it with. -/
  | expectedAlone
  deriving DecidableEq, Repr

namespace Command

/-- What the subcommand `decode` accepts. -/
def decodeAccepted : Accepted where
  flags := ["json", "path-flag", "assert"]
  settings := ["predicate", "expected", "validation", "stdin-size", "max-depth"]

/-- The only word given, which must not be empty. -/
def path? (g : Given) : Option String :=
  match g.words with
  | [path] => if path.isEmpty then none else some path
  | _ => none

/-- A setting that must be a machine word if it is given. -/
def number? (g : Given) (name : String) : Option (Option Nat) :=
  match g.setting? name with
  | none => some none
  | some text =>
    (((Text.readNatural? text.toList).filter (· < Word.limit)).map some)

/-- The predicate that the settings describe. An operator needs an expected value. -/
def predicate? (g : Given) : Except CommandError (Option PredicateTexts) :=
  match g.setting? "predicate", g.setting? "expected" with
  -- integers of 32 bits are compared if nothing else is said
  | some operator, some expected =>
    .ok (some ⟨operator, expected, (g.setting? "validation").getD "int32_t"⟩)
  | some _, none => .error .usage
  | none, some _ => .error .expectedAlone
  | none, none => .ok none

/-- A part of a command line that has a meaning if it can be read. -/
def readable {α : Type} (part : Option α) : Except CommandError α :=
  match part with
  | some a => .ok a
  | none => .error .usage

/-- The subcommand `decode` with the given arguments. -/
def ofDecode (arguments : List String) : Except CommandError Command := do
  -- an option may not be given twice
  let g ← readable ((decodeAccepted.gather arguments).filter (·.isDistinct))
  let path ← readable (path? g)
  let stdinCapacity ← readable (number? g "stdin-size")
  let maxDepth ← readable (number? g "max-depth")
  -- the last check, so that other mistakes are reported before it
  let predicate ← predicate? g
  let filters : Filters := ⟨g.flags.contains "path-flag", g.flags.contains "assert", predicate⟩
  .ok (.decode path ⟨g.flags.contains "json", filters, stdinCapacity, maxDepth⟩)

/-- The subcommand `types` with the given arguments. -/
def ofTypes (arguments : List String) : Except CommandError Command := do
  let g ← readable (Accepted.gather {} arguments)
  let path ← readable (path? g)
  .ok (.types path)

/-- **Command** of a command line. Before the subcommand the version can be asked for, and then what
follows does not count. -/
def parse : List String → Except CommandError Command
  | [] => .error .usage
  | text :: rest =>
    let argument := Argument.ofText text
    if argument.isVerbosity then parse rest
    else if argument.isVersion then .ok .version
    else
      match argument with
      | .word "decode" => ofDecode rest
      | .word "types" => ofTypes rest
      | _ => .error .usage

end Command

end SymVec
