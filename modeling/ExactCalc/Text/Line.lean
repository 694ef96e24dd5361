/-!
# Lines of a byte sequence

A line feed ends a line, and so does a carriage return just before it; what follows the last line feed is a line only
if it is not empty.  A line is a text only if its bytes are UTF-8.
-/
namespace ExactCalc

/-- The lines of a byte sequence, without their ends.  A carriage return elsewhere belongs to its line. -/
def splitLines : List UInt8 → List (List UInt8)
  | []             => []
  | 13 :: 10 :: bs => [] :: splitLines bs
  | 10 :: bs       => [] :: splitLines bs
  | b :: bs        =>
    match splitLines bs with
    | []      => [[b]]
    | l :: ls => (b :: l) :: ls

/-- The text that a byte sequence encodes, if it is UTF-8. -/
def decodeText (bs : List UInt8) : Option String :=
  String.fromUTF8? bs.toByteArray

end ExactCalc
