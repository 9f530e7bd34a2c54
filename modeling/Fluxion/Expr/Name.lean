import Fluxion.Decimal.Shortest
import Fluxion.Expr.Basic

/-!
# Names

What a name in a text can mean: a constant, a function, or a variable, the last
two with a number in front if there is one. The letter `e` is always the
constant and never a variable.

A name is read in two halves. Its coefficient is the longest run of digits and
points at its start, with a minus in front of them or alone; what follows the
run is looked up. A coefficient that is no finite number makes the name mean
nothing.
-/

namespace Fluxion

namespace Constant

def all : List Constant :=
  [pi, e]

def name : Constant → List Char
  | pi => ['p', 'i']
  | e => ['e']

def ofName? (cs : List Char) : Option Constant :=
  all.find? fun c => c.name == cs

@[simp] theorem ofName?_name (c : Constant) : ofName? c.name = some c := by
  cases c <;> rfl

theorem name_of_ofName? {cs : List Char} {c : Constant} (h : ofName? cs = some c) :
    c.name = cs := by
  have := List.find?_some h
  simpa using this

end Constant

namespace Base

def text : Base → List Char
  | number n => Decimal.text n
  | constant c => c.name

/-- The base that a text stands for: a constant or a finite number. -/
def ofText? (cs : List Char) : Option Base :=
  match Constant.ofName? cs with
  | some c => some (constant c)
  | none => ((Decimal.read? cs).filter Float.isFinite).map number

end Base

namespace Func

/-- Every function that has a fixed name. -/
def plain : List Func :=
  [abs, sin, cos, tan, sec, csc, cot, arcsin, arccos, arctan, arcsec, arccsc, arccot, ln]

def name : Func → List Char
  | abs => ['a', 'b', 's']
  | sin => ['s', 'i', 'n']
  | cos => ['c', 'o', 's']
  | tan => ['t', 'a', 'n']
  | sec => ['s', 'e', 'c']
  | csc => ['c', 's', 'c']
  | cot => ['c', 'o', 't']
  | arcsin => ['a', 'r', 'c', 's', 'i', 'n']
  | arccos => ['a', 'r', 'c', 'c', 'o', 's']
  | arctan => ['a', 'r', 'c', 't', 'a', 'n']
  | arcsec => ['a', 'r', 'c', 's', 'e', 'c']
  | arccsc => ['a', 'r', 'c', 'c', 's', 'c']
  | arccot => ['a', 'r', 'c', 'c', 'o', 't']
  | ln => ['l', 'n']
  | log none => ['l', 'o', 'g']
  | log (some base) => 'l' :: 'o' :: 'g' :: '_' :: base.text

/-- The logarithm of a given name, with the base written behind an underscore. -/
def logarithm? : List Char → Option Func
  | ['l', 'o', 'g'] => some (log none)
  | 'l' :: 'o' :: 'g' :: '_' :: base => (Base.ofText? base).map fun b => log (some b)
  | _ => none

def ofName? (cs : List Char) : Option Func :=
  (plain.find? fun f => f.name == cs).or (logarithm? cs)

end Func

/-- A name taken apart: the coefficient in front, if there is one, and the rest. -/
structure SplitName where
  coefficient : Option Float
  rest : List Char
deriving Repr

namespace SplitName

/-- The characters of a coefficient behind its sign. -/
def isNumeric (c : Char) : Bool :=
  c.isDigit || c == '.'

/-- The text of the coefficient and the text behind it. -/
def cut : List Char → List Char × List Char
  | '-' :: cs => ('-' :: cs.takeWhile isNumeric, cs.dropWhile isNumeric)
  | cs => (cs.takeWhile isNumeric, cs.dropWhile isNumeric)

/-- Takes a name apart, unless its coefficient is not a number. A lone minus
stands for `-1`, and a coefficient too large for a float for an infinity. -/
def ofName? (name : List Char) : Option SplitName :=
  let (front, rest) := cut name
  match front with
  | [] => some ⟨none, rest⟩
  | ['-'] => some ⟨some (-1), rest⟩
  | front => (Decimal.read? front).map fun c => ⟨some c, rest⟩

/-- The coefficient is a finite number, or there is none. -/
def isFinite (s : SplitName) : Bool :=
  s.coefficient.all Float.isFinite

/-- Takes a name apart, unless its coefficient is not a finite number. -/
def ofFinite? (name : List Char) : Option SplitName :=
  (ofName? name).filter isFinite

theorem isFinite_of_ofFinite? {cs : List Char} {s : SplitName} (h : ofFinite? cs = some s) :
    ofName? cs = some s ∧ s.isFinite = true :=
  Option.filter_eq_some_iff.mp h

/-- A coefficient that is too large for a float leaves a name without a meaning. -/
theorem any_not_isFinite_of_ofFinite? {cs : List Char} {s : SplitName}
    (h : ofFinite? cs = some s) :
    (ofName? cs).any (fun split => !split.isFinite) = false := by
  obtain ⟨hname, hfin⟩ := isFinite_of_ofFinite? h
  simp [hname, hfin]

end SplitName

/-- A function with the coefficient written in front of it. -/
structure CallName where
  coefficient : Option Float
  func : Func
deriving BEq, Repr

/-- The function that a name calls, as in `3sin`. -/
def CallName.ofName? (name : List Char) : Option CallName := do
  let split ← SplitName.ofFinite? name
  let func ← Func.ofName? split.rest
  return ⟨split.coefficient, func⟩

theorem CallName.exists_ofFinite? {cs : List Char} {c : CallName} (h : ofName? cs = some c) :
    ∃ s, SplitName.ofFinite? cs = some s ∧ s.coefficient = c.coefficient ∧
      Func.ofName? s.rest = some c.func := by
  simp only [ofName?, Option.bind_eq_bind, Option.bind_eq_some_iff] at h
  obtain ⟨s, hs, f, hf, hc⟩ := h
  cases hc
  exact ⟨s, hs, rfl, hf⟩

namespace Leaf

/-- The letters that can be variables. -/
def isVariableName (c : Char) : Bool :=
  c.isAlpha && c != 'e'

theorem isAlpha_of_isVariableName {c : Char} (h : isVariableName c = true) : c.isAlpha = true :=
  (Bool.and_eq_true_iff.1 h).1

/-- The constant or variable that a name stands for, as in `pi` and `2x`. -/
def ofName? (name : List Char) : Option Leaf :=
  match Constant.ofName? name with
  | some c => some (constant c)
  | none =>
    match SplitName.ofFinite? name with
    | some ⟨coefficient, [letter]⟩ =>
      if isVariableName letter then some (var coefficient letter) else none
    | _ => none

theorem ofName?_cases {cs : List Char} {l : Leaf} (h : ofName? cs = some l) :
    (∃ c, cs = c.name ∧ l = .constant c) ∨
      (∃ coefficient letter, SplitName.ofFinite? cs = some ⟨coefficient, [letter]⟩ ∧
        isVariableName letter = true ∧ l = .var coefficient letter) := by
  unfold ofName? at h
  split at h
  · next c hc =>
      cases h
      exact Or.inl ⟨c, (Constant.name_of_ofName? hc).symm, rfl⟩
  · split at h
    · next coefficient letter hs =>
        split at h
        · next hv =>
            cases h
            exact Or.inr ⟨coefficient, letter, hs, hv, rfl⟩
        · cases h
    · cases h

/-- The unknown derivative that a text such as `dy/dx` stands for. -/
def ofLeibniz? : List Char → Option Leaf
  | ['d', of, '/', 'd', wrt] => if of.isAlpha && wrt.isAlpha then some (leibniz of wrt) else none
  | _ => none

end Leaf

end Fluxion
