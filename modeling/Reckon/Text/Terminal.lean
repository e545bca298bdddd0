/-! # Text as a terminal shows it

An escape opens a sequence that a terminal takes in without showing it. White space shows even in
the middle of a control sequence, and so does the text behind it; the sequence goes on at the next
character that does not show.
-/

namespace Reckon.Text

inductive Mode where
  | plain
  | escape
  | designation
  | control
  | command
  | device
  | deviceParameters
  | deviceMarks
  | data
  deriving DecidableEq, Repr

/-- The part that a character can play in a sequence. -/
inductive Role where
  | mark
  | parameter
  | final
  | none
  deriving DecidableEq, Repr

def Role.of (c : Char) : Role :=
  let n := c.toNat
  if n < 0x20 then none
  else if n < 0x30 then mark
  else if n < 0x40 then parameter
  else if n < 0x7f then final
  else none

/-- White space that a terminal shows everywhere but in a command and in the data of a device. -/
def isLayout (c : Char) : Bool := c == '\t' || c == '\n' || c == '\x0c' || c == '\r'

/-- The encoding of the character has the byte that ends the data of a device. -/
def endsData (c : Char) : Bool := (String.utf8EncodeChar c).contains 0x9c

namespace Mode

def opened : Char → Mode
  | '[' => control
  | ']' => command
  | 'P' => device
  | 'X' | '^' | '_' => data
  | _ => plain

/-- The mode behind a character. Cancel and substitute end every sequence. -/
def next (mode : Mode) (c : Char) : Mode :=
  if c == '\x18' || c == '\x1a' then plain
  else if c == '\x1b' then escape
  else
    match mode, Role.of c with
    | plain, _ => plain
    | escape, .mark => designation
    | escape, .none => escape
    | escape, _ => opened c
    | designation, .parameter | designation, .final => plain
    | designation, _ => designation
    | control, .final => plain
    | control, _ => control
    | command, _ => if c == '\x07' then plain else command
    | device, .mark => deviceMarks
    | device, .parameter => deviceParameters
    | deviceParameters, .mark => deviceMarks
    | deviceParameters, .parameter => if c < '<' then deviceParameters else data
    | deviceMarks, .mark => deviceMarks
    | deviceMarks, .parameter => data
    | data, _ => if endsData c then plain else data
    | device, .final | deviceParameters, .final | deviceMarks, .final => data
    | device, .none | deviceParameters, .none | deviceMarks, .none => mode

def shows : Mode → Char → Bool
  | plain, c => isLayout c || (decide (0x20 ≤ c.toNat) && c != '\x7f')
  | escape, c | designation, c | control, c => isLayout c
  | _, _ => false

end Mode

/-- A terminal at work, with all that it has shown, the last character first. -/
structure Screen where
  mode : Mode
  showing : Bool
  shown : List Char
  deriving DecidableEq, Repr

namespace Screen

def blank : Screen := ⟨.plain, false, []⟩

/-- Read a character. Behind a shown character the mode does not decide what shows. -/
def read (screen : Screen) (c : Char) : Screen :=
  if screen.showing && Mode.plain.shows c then
    { screen with
      mode := if c.toNat < 0x80 then screen.mode else .plain
      shown := c :: screen.shown }
  else
    { mode := screen.mode.next c
      showing := screen.mode.shows c
      shown := if screen.mode.shows c then c :: screen.shown else screen.shown }

end Screen

def visible (text : String) : String :=
  String.ofList (text.toList.foldl Screen.read Screen.blank).shown.reverse

example : visible "a\x1b[31mbc" = "abc" := by decide +kernel
example : visible "\x1b]title\ntext\x07Z" = "Z" := by decide +kernel
example : visible "\x1b[1\t2mZ\x07ab" = "\t2mZb" := by decide +kernel

end Reckon.Text
