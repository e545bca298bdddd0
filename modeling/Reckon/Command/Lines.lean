import Reckon.Text.Blank

/-! # Lines of input

Input is bytes. A line ends at a newline, and a carriage return in front of that is not part of it;
a last line without a newline keeps its return.
-/

namespace Reckon.Command

/-- The bytes of a line, given with the last first, without the carriage return that ends it. -/
def chomp : List UInt8 → List UInt8
  | 13 :: line => line.reverse
  | line => line.reverse

/-- The lines behind the bytes of a line begun, the last first. -/
def splitFrom (begun : List UInt8) : List UInt8 → List (List UInt8)
  | [] => if begun = [] then [] else [begun.reverse]
  | 10 :: bytes => chomp begun :: splitFrom [] bytes
  | byte :: bytes => splitFrom (byte :: begun) bytes

def splitLines (bytes : List UInt8) : List (List UInt8) := splitFrom [] bytes

def decode (bytes : List UInt8) : Option String := String.fromUTF8? ⟨bytes.toArray⟩

def inputLines (input : ByteArray) : List (Option String) :=
  (splitLines input.data.toList).map decode

end Reckon.Command
