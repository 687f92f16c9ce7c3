import OffsetCommit.CommandLine.Option

/-!
# Reading the command line

The arguments are read from left to right, and the first fault decides. An option's value stands
after an equals sign, where it is read at once, or is the argument that follows. In that case it
is read when the next option comes or the command line ends, so an argument that is no option
and no value is found first. A value that follows does not begin with a hyphen, except that it
may be a single one.
-/

namespace OffsetCommit.CommandLine

/-- What the program is asked to do. -/
inductive Request where
  /-- Run a simulation. -/
  | simulate (options : Options)
  /-- Explain the options. -/
  | help
  /-- Tell the version. -/
  | version
deriving DecidableEq

/-! ## Arguments -/

/-- What an argument looks like. -/
inductive Argument where
  /-- Two hyphens and a name, and maybe a value after an equals sign. -/
  | long (name : String) (value : Option String)
  /-- One hyphen and some letters. -/
  | short (letters : List Char)
  /-- Two hyphens alone: no option follows. -/
  | terminator
  /-- Anything else. -/
  | plain (text : String)
deriving DecidableEq, Inhabited

/-- Splits a long option into its name and what stands after the first equals sign. -/
def splitLong (text : List Char) : String × Option String :=
  match text.dropWhile (· ≠ '=') with
  | [] => (String.ofList text, none)
  | _ :: value => (String.ofList (text.takeWhile (· ≠ '=')), some (String.ofList value))

/-- What an argument looks like, by the hyphens at its beginning. -/
def Argument.ofString (text : String) : Argument :=
  match text.toList with
  | ['-', '-'] => .terminator
  | '-' :: '-' :: rest =>
      let (name, value) := splitLong rest
      .long name value
  | '-' :: letter :: letters => .short (letter :: letters)
  | _ => .plain text

/-! ## Options with their values -/

/-- How far the command line has been read. -/
structure Progress where
  /-- What has been asked for so far. -/
  options : Options
  /-- The options whose values have been read. -/
  given : List Flag
  /-- An option whose value has not been read, with its value if that has come. -/
  pending : Option (Flag × Option String)

namespace Progress

/-- Nothing has been read. -/
def start : Progress := ⟨.standard, [], none⟩

/-- Reads the value of an option, which must be its first. -/
def assign (pr : Progress) (flag : Flag) (value : String) : Except UsageError Progress :=
  if flag ∈ pr.given then .error (.repeated flag)
  else
    (flag.assign value pr.options).map fun options =>
      { pr with options := options, given := flag :: pr.given }

/-- Reads the value of the option that waits for it. -/
def settle (pr : Progress) : Except UsageError Progress :=
  match pr.pending with
  | none => .ok pr
  | some (flag, none) => .error (.missingValue flag)
  | some (flag, some value) => { pr with pending := none }.assign flag value

/-- Takes an option; its value is read at once when it is attached. -/
def take (pr : Progress) (flag : Flag) (value : Option String) : Except UsageError Progress :=
  pr.settle.bind fun pr =>
    match value with
    | some value => pr.assign flag value
    | none => .ok { pr with pending := some (flag, none) }

/-- The request when every argument has been read. -/
def finish (pr : Progress) : Except UsageError Request :=
  pr.settle.map fun pr => .simulate pr.options

/-- Reads what is left of the command line. -/
def read (pr : Progress) : List String → Except UsageError Request
  | [] => pr.finish
  | text :: rest =>
      match Argument.ofString text with
      | .plain value =>
          match pr.pending with
          | some (flag, none) => { pr with pending := some (flag, some value) }.read rest
          | _ => .error (.unexpected text)
      | .terminator =>
          match rest with
          | [] => pr.finish
          | next :: _ => .error (.unexpected next)
      | .long "help" none => pr.settle.map fun _ => .help
      | .long "version" none => pr.settle.map fun _ => .version
      | .long name value =>
          match Flag.ofName? name with
          | none => .error (.unexpected text)
          | some flag =>
              match pr.take flag value with
              | .ok pr => pr.read rest
              | .error error => .error error
      | .short ('h' :: _) => pr.settle.map fun _ => .help
      | .short ('V' :: _) => pr.settle.map fun _ => .version
      | .short _ => .error (.unexpected text)

end Progress

/-- Reads a command line. -/
def read (arguments : List String) : Except UsageError Request :=
  Progress.start.read arguments

end OffsetCommit.CommandLine
