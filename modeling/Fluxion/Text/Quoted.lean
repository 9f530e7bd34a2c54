/-!
# Quoted text

Pieces of the input that are named in a message stand between backquotes.
-/

namespace Fluxion.Text

/-- A text as it is named in a message. -/
def quoted (cs : List Char) : String :=
  "`" ++ String.ofList cs ++ "`"

end Fluxion.Text
