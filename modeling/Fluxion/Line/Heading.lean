import Fluxion.Text.Blank
import Fluxion.Expr.Name

/-!
# The heading of a line

A line may say in front of its expression which variable to differentiate with
respect to: `dy/dt t ^ 2`. A blank has to follow, for without one the same
characters begin an expression, as in `dy/dx*2`. The letter behind the first `d`
may be any, `e` too, and says nothing.

Whether there is a heading or not, the body is what is left of the line, and its
offset the number of bytes before it: `byteLength_eq`.
-/

namespace Fluxion

/-- A line parted into its heading and its body. -/
structure Heading where
  /-- The variable that the heading names, if there is one. -/
  wrt : Option Char
  /-- The number of bytes in front of the body. -/
  offset : Nat
  body : List Char
deriving DecidableEq, Repr

namespace Heading

/-- Parts a line that begins with no blank. -/
def ofTrimmed (offset : Nat) (cs : List Char) : Heading :=
  match cs with
  | 'd' :: of :: '/' :: 'd' :: wrt :: blank :: rest =>
    if of.isAlpha && Leaf.isVariableName wrt && Text.isBlank blank then
      ⟨some wrt, offset + 5 + blank.utf8Size, rest⟩
    else ⟨none, offset, cs⟩
  | _ => ⟨none, offset, cs⟩

def ofLine (line : List Char) : Heading :=
  ofTrimmed (Text.byteLength (line.takeWhile Text.isBlank)) (Text.trimStart line)

theorem byteLength_ofTrimmed (offset : Nat) (cs : List Char) :
    offset + Text.byteLength cs
      = (ofTrimmed offset cs).offset + Text.byteLength (ofTrimmed offset cs).body := by
  unfold ofTrimmed
  split
  next of wrt blank rest =>
    split
    next h =>
      simp only [Bool.and_eq_true] at h
      have hof := Text.utf8Size_eq_one_of_isAlpha h.1.1
      have hwrt := Text.utf8Size_eq_one_of_isAlpha (Leaf.isAlpha_of_isVariableName h.1.2)
      simp only [Text.byteLength_cons, hof, hwrt, show 'd'.utf8Size = 1 from rfl,
        show '/'.utf8Size = 1 from rfl]
      omega
    next => rfl
  next => rfl

/-- The offset of the body counts the bytes in front of it. -/
theorem byteLength_eq (line : List Char) :
    Text.byteLength line = (ofLine line).offset + Text.byteLength (ofLine line).body := by
  have parts : Text.byteLength line
      = Text.byteLength (line.takeWhile Text.isBlank) + Text.byteLength (Text.trimStart line) := by
    rw [Text.trimStart, ← Text.byteLength_append, List.takeWhile_append_dropWhile]
  rw [parts, byteLength_ofTrimmed, ofLine]

end Heading

end Fluxion
