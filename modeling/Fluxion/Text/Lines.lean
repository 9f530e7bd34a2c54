/-!
# Lines of bytes

A line ends with a line feed or with the text. A carriage return right before
the line feed belongs to the line end; one that ends the text belongs to the
line. A line feed at the end of the text begins no further line.

Bytes are cut into lines before they are decoded, which cuts no character: no
byte of a longer character is a line feed.
-/

namespace Fluxion.Text

/-- The byte that ends a line. -/
def lineFeed : UInt8 :=
  10

/-- A line without the carriage return at its end. -/
def dropReturn (line : List UInt8) : List UInt8 :=
  if line.getLast? = some 13 then line.dropLast else line

/-- The lines of a text, without their ends. -/
def byteLines (bytes : List UInt8) : List (List UInt8) :=
  match h : bytes.dropWhile (· != lineFeed) with
  | [] => if bytes = [] then [] else [bytes]
  | _ :: rest =>
    have : rest.length < bytes.length := by
      have := (List.dropWhile_suffix (· != lineFeed) (l := bytes)).length_le
      rw [h, List.length_cons] at this
      exact this
    dropReturn (bytes.takeWhile (· != lineFeed)) :: byteLines rest
termination_by bytes.length

/-- The text that bytes encode in UTF-8, if they do. -/
def decode? (bytes : List UInt8) : Option (List Char) :=
  (String.fromUTF8? ⟨bytes.toArray⟩).map String.toList

/-- The lines of a text in UTF-8. A line that is not in UTF-8 is `none`. -/
def lines (bytes : List UInt8) : List (Option (List Char)) :=
  (byteLines bytes).map decode?

end Fluxion.Text
