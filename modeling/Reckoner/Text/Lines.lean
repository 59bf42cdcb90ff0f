/-! Lines of bytes, and the texts that they hold. -/
namespace Reckoner.Text

/-- The lines without their ends. A line ends with a line feed, to which one carriage return before it
belongs; the last line may have no end, and then keeps its carriage return. -/
def lines : List UInt8 → List (List UInt8)
  | [] => []
  | 13 :: 10 :: rest => [] :: lines rest
  | 10 :: rest => [] :: lines rest
  | b :: rest =>
    match lines rest with
    | [] => [[b]]
    | line :: more => (b :: line) :: more

/-- The text whose encoding the bytes are. -/
def ofBytes? (bytes : List UInt8) : Option String := String.fromUTF8? bytes.toByteArray

/-- The texts of the lines before the first one that holds no text, and whether there is such a line. -/
def ofLines : List (List UInt8) → List String × Bool
  | [] => ([], false)
  | line :: more =>
    match ofBytes? line with
    | none => ([], true)
    | some text =>
      let (texts, broken) := ofLines more
      (text :: texts, broken)

end Reckoner.Text
