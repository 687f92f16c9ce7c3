/-!
# Plain text

A refusal quotes what was typed, and what was typed may hold characters that act on a terminal.
`plainText` takes them out, and `plainLine` keeps the first line of what is left. Tabs, line
breaks and everything that shows are kept; all other control characters go, and with an escape
character the whole control sequence that it begins.

A tab or a line break shows even inside a sequence. From there on the text shows up to the next
character that does not, and then the sequence goes on where it was interrupted.
-/

namespace OffsetCommit.CommandLine

/-- Where a reader is with regard to control sequences. -/
inductive Place where
  /-- Outside of any sequence. -/
  | ground
  /-- Just behind an escape character. -/
  | escape
  /-- Among the intermediate characters of a short sequence. -/
  | intermediate
  /-- In a sequence with parameters. -/
  | parameters
  /-- At the beginning of a device control string. -/
  | deviceHead
  /-- Among the parameters of a device control string. -/
  | deviceParameters
  /-- Among the intermediate characters of a device control string. -/
  | deviceIntermediate
  /-- In an operating system command. -/
  | systemCommand
  /-- In the body of any other control string, or behind a fault in its head. -/
  | controlString
deriving DecidableEq, Inhabited

namespace Place

/-- Where a character of a sequence leads from just behind an escape character. -/
def afterEscape (c : Char) : Place :=
  match c with
  | '[' => parameters
  | ']' => systemCommand
  | 'P' => deviceHead
  | 'X' => controlString
  | '^' => controlString
  | '_' => controlString
  | _ => if c < '0' then intermediate else ground

/-- Where a character of a sequence leads from the head of a device control string, if its
parameters consist of the characters from the digits up to a bound. -/
def inDeviceHead (bound c : Char) : Place :=
  if c < '0' then deviceIntermediate else if c < bound then deviceParameters else controlString

/-- Whether a character ends a control string without an escape character: one of the bytes of
its encoding is the terminator of the eight-bit control codes. -/
def endsControlString (c : Char) : Bool :=
  (String.utf8EncodeChar c).contains 0x9c

/-- Whether a character is one of those of which sequences consist. -/
def isSequenceChar (c : Char) : Bool :=
  ' ' ≤ c && c ≤ '~'

/-- Where a character leads. Cancelling ends every sequence, and an escape character begins the
next one. -/
def next (place : Place) (c : Char) : Place :=
  if c = '\x18' ∨ c = '\x1a' then ground
  else if c = '\x1b' then escape
  else
    match place with
    | ground => ground
    | escape => if isSequenceChar c then afterEscape c else escape
    | intermediate => if isSequenceChar c ∧ '0' ≤ c then ground else intermediate
    | parameters => if isSequenceChar c ∧ '@' ≤ c then ground else parameters
    | deviceHead => if isSequenceChar c then inDeviceHead '@' c else deviceHead
    | deviceParameters => if isSequenceChar c then inDeviceHead '<' c else deviceParameters
    | deviceIntermediate =>
        if isSequenceChar c ∧ '0' ≤ c then controlString else deviceIntermediate
    | systemCommand => if c = '\x07' then ground else systemCommand
    | controlString => if endsControlString c then ground else controlString

/-- Whether a character is a tab or a line break of some kind. -/
def isBreak (c : Char) : Bool :=
  c = '\t' || c = '\n' || c = '\x0c' || c = '\x0d'

/-- Whether a character shows at a place. Inside a control string nothing does. -/
def shows (place : Place) (c : Char) : Bool :=
  match place with
  | ground => isBreak c || (' ' ≤ c && c ≠ '\x7f')
  | escape => isBreak c
  | intermediate => isBreak c
  | parameters => isBreak c
  | deviceHead => false
  | deviceParameters => false
  | deviceIntermediate => false
  | systemCommand => false
  | controlString => false

end Place

/-- The characters that show, from a place on. While the text shows, a character beyond the
seven-bit ones also ends the sequence that was interrupted. -/
def plainFrom (place : Place) (isShowing : Bool) : List Char → List Char
  | [] => []
  | c :: rest =>
      if isShowing && Place.ground.shows c then
        c :: plainFrom (if c ≤ '\x7f' then place else .ground) true rest
      else if place.shows c then c :: plainFrom (place.next c) true rest
      else plainFrom (place.next c) false rest

/-- The text without what acts on a terminal. -/
def plainText (text : String) : String :=
  String.ofList (plainFrom .ground true text.toList)

/-- The first line that shows of a text. -/
def plainLine (text : String) : String :=
  String.ofList ((plainText text).toList.takeWhile (· ≠ '\n'))

end OffsetCommit.CommandLine
