/-!
# Command line arguments

How the arguments of a command line are told apart, and how those of a subcommand are sorted into
words, flags and settings. A setting takes its value from the same argument, after `=`, or from the
next one, which must then be a word. After the argument `--` everything is a word.

* `Argument.ofText_flag` — a name behind two hyphens is read as that name;
* `Accepted.gather` — the arguments of a subcommand, sorted.
-/

namespace SymVec

/-- An argument by its form. -/
inductive Argument where
  | word (text : String)
  /-- The argument `--`. -/
  | separator
  /-- A name behind two hyphens, and what follows it after `=`. -/
  | long (name : String) (value : Option String)
  /-- Letters behind one hyphen. -/
  | short (letters : List Char)
  deriving DecidableEq, Repr

namespace Argument

/-- The form of a long option, given what stands behind the hyphens. -/
def ofLong (body : List Char) : Argument :=
  let name := String.ofList (body.takeWhile (· ≠ '='))
  match body.dropWhile (· ≠ '=') with
  | [] => .long name none
  | _ :: value => .long name (some (String.ofList value))

/-- **Form** of an argument. A hyphen alone is a word. -/
def ofText (text : String) : Argument :=
  match text.toList with
  | ['-', '-'] => .separator
  | '-' :: '-' :: body => ofLong body
  | '-' :: c :: letters => .short (c :: letters)
  | _ => .word text

/-- Whether the argument raises the verbosity and does nothing else. -/
def isVerbosity : Argument → Bool
  | long "verbose" none => true
  | short letters => letters.all (· = 'v')
  | _ => false

/-- Whether the argument asks for the version. -/
def isVersion : Argument → Bool
  | long "version" none => true
  | short letters => (letters.dropWhile (· = 'v')).head? = some 'V'
  | _ => false

/-- A long option without `=` has no value. -/
theorem ofLong_flag {body : List Char} (h : '=' ∉ body) :
    ofLong body = .long (String.ofList body) none := by
  -- without the character the run before it is the whole text
  have whole : ∀ cs : List Char, '=' ∉ cs →
      cs.takeWhile (· ≠ '=') = cs ∧ cs.dropWhile (· ≠ '=') = [] := by
    intro cs hcs
    induction cs with
    | nil => simp
    | cons c rest ih =>
      simp only [List.mem_cons, not_or] at hcs
      have hc : c ≠ '=' := Ne.symm hcs.1
      simpa [List.takeWhile_cons, List.dropWhile_cons, hc] using ih hcs.2
  simp only [ofLong, (whole body h).1, (whole body h).2]

/-- A name behind two hyphens is read as that name. -/
theorem ofText_flag {name : String} (hne : name ≠ "") (h : '=' ∉ name.toList) :
    ofText ("--" ++ name) = .long name none := by
  have hlist : ("--" ++ name).toList = '-' :: '-' :: name.toList := by simp
  cases hname : name.toList with
  | nil => exact absurd (String.toList_injective (by simpa using hname)) hne
  | cons c rest =>
    rw [ofText, hlist, hname]
    show ofLong (c :: rest) = _
    rw [ofLong_flag (hname ▸ h), ← hname, String.ofList_toList]

end Argument

/-- The arguments of a subcommand, sorted. -/
structure Given where
  words : List String := []
  flags : List String := []
  /-- Names with their values. -/
  settings : List (String × String) := []
  deriving DecidableEq, Repr

namespace Given

/-- One more word in front. -/
def withWord (g : Given) (word : String) : Given := { g with words := word :: g.words }

/-- One more flag in front. -/
def withFlag (g : Given) (name : String) : Given := { g with flags := name :: g.flags }

/-- One more setting in front. -/
def withSetting (g : Given) (name value : String) : Given :=
  { g with settings := (name, value) :: g.settings }

/-- Whether no flag and no setting is given twice. -/
def isDistinct (g : Given) : Bool := g.flags.Nodup ∧ (g.settings.map (·.1)).Nodup

/-- The value of a setting. -/
def setting? (g : Given) (name : String) : Option String := g.settings.lookup name

end Given

/-- The flags and settings that a subcommand accepts. -/
structure Accepted where
  flags : List String := []
  settings : List String := []

/-- **Sorted arguments**, or none if one of them is not accepted. -/
def Accepted.gather (a : Accepted) : List String → Option Given
  | [] => some {}
  | text :: rest =>
    match Argument.ofText text with
    | .separator => some { words := rest }
    | .word word => (gather a rest).map (·.withWord word)
    | .long name (some value) =>
      if a.settings.contains name then (gather a rest).map (·.withSetting name value) else none
    | .long name none =>
      -- a value given to this option in the same argument is not accepted
      if name = "verbose" then gather a rest
      else if a.flags.contains name then (gather a rest).map (·.withFlag name)
      else if a.settings.contains name then
        -- the value is the next argument, which must not look like an option
        match rest with
        | [] => none
        | next :: rest =>
          match Argument.ofText next with
          | .word value => (gather a rest).map (·.withSetting name value)
          | _ => none
      else none
    | argument => if argument.isVerbosity then gather a rest else none

end SymVec
