import Fluxion.Expr.Name
import Fluxion.Text.Quoted

/-!
# Arguments of a program

Arguments are read from left to right, and the first fault or request for the
version ends the reading. What only the arguments together can have wrong, such
as a path that is missing, is looked at once all of them have been read.
-/

namespace Fluxion.Command

/-- Why a program refuses its arguments. -/
inductive Refusal where
  /-- There is no such option, or the program takes no such argument. -/
  | unexpected (argument : List Char)
  /-- An option comes a second time. -/
  | repeated (option : List Char)
  /-- An option that needs a value has none. -/
  | missingValue (option : List Char)
  /-- A value is attached to an option that takes none. -/
  | needlessValue (option : List Char)
  /-- The value is no variable. -/
  | notVariable (value : List Char)
  /-- Two options exclude each other. -/
  | conflict (first second : List Char)
  /-- An argument that has to be there is missing or empty. -/
  | missingArgument (name : List Char)
deriving DecidableEq, Repr

namespace Refusal

def message : Refusal → String
  | unexpected argument => "unexpected argument " ++ Text.quoted argument
  | repeated option => Text.quoted option ++ " cannot be used multiple times"
  | missingValue option => Text.quoted option ++ " needs a value"
  | needlessValue option => Text.quoted option ++ " takes no value"
  | notVariable value => Text.quoted value ++ " is not a single-letter variable (other than `e`)"
  | conflict first second => Text.quoted first ++ " cannot be used with " ++ Text.quoted second
  | missingArgument name => Text.quoted name ++ " was not provided"

end Refusal

/-- The variable that an argument names. -/
def readVariable (value : List Char) : Except Refusal Char :=
  match value with
  | [name] => if Leaf.isVariableName name then .ok name else .error (.notVariable value)
  | _ => .error (.notVariable value)

inductive Flag where
  | raw
  | steps
deriving DecidableEq, Repr

def Flag.name : Flag → List Char
  | raw => "raw".toList
  | steps => "steps".toList

/-- What a program takes besides `--var` and `--version`. -/
structure Accepts where
  flags : List Flag
  operands : Nat
deriving DecidableEq, Repr

/-- What the arguments of a program say. -/
structure Given where
  wrt : Option Char
  flags : List Flag
  operands : List (List Char)
deriving DecidableEq, Repr

/-- What a program is asked to do. -/
inductive Request where
  | version
  | run (given : Given)
deriving DecidableEq, Repr

inductive Argument where
  /-- The argument `--`, behind which there are no options. -/
  | terminator
  /-- An option such as `--var`, or `--var=t` with a value attached. -/
  | long (name : List Char) (value : Option (List Char))
  /-- Options of one letter each, such as `-V`. -/
  | short (letters : List Char)
  /-- Anything else: a value or an operand. A lone minus is one. -/
  | plain (text : List Char)
deriving DecidableEq, Repr

namespace Argument

/-- An option is parted from its value at the first equals sign. -/
def attached (cs : List Char) : Argument :=
  match cs.dropWhile (· != '=') with
  | _ :: value => long (cs.takeWhile (· != '=')) (some value)
  | [] => long cs none

def ofText : List Char → Argument
  | ['-', '-'] => terminator
  | '-' :: '-' :: cs => attached cs
  | ['-'] => plain ['-']
  | '-' :: letters => short letters
  | cs => plain cs

end Argument

namespace Given

def empty : Given :=
  ⟨none, [], []⟩

/-- Takes the value of the option `--var`. -/
def takeVariable (g : Given) (value : List Char) : Except Refusal Given :=
  match g.wrt, readVariable value with
  | some _, _ => .error (.repeated "--var".toList)
  | none, .error refusal => .error refusal
  | none, .ok name => .ok { g with wrt := some name }

def takeFlag (g : Given) (accepts : Accepts) (name : List Char) (value : Option (List Char)) :
    Except Refusal Given :=
  let option := '-' :: '-' :: name
  match accepts.flags.find? fun flag => flag.name == name, value with
  | none, _ => .error (.unexpected option)
  | some _, some _ => .error (.needlessValue option)
  | some flag, none =>
    if flag ∈ g.flags then .error (.repeated option) else .ok { g with flags := flag :: g.flags }

def takeOperand (g : Given) (accepts : Accepts) (text : List Char) : Except Refusal Given :=
  if accepts.operands ≤ g.operands.length then .error (.unexpected text)
  else if text = [] then .error (.missingArgument text)
  else .ok { g with operands := g.operands ++ [text] }

def takeOperands (g : Given) (accepts : Accepts) (texts : List (List Char)) :
    Except Refusal Given :=
  texts.foldlM (fun g text => g.takeOperand accepts text) g

end Given

/-- Reads the arguments of a program behind those that gave `given`. -/
def readFrom (accepts : Accepts) (given : Given) : List (List Char) → Except Refusal Request
  | [] => .ok (.run given)
  | text :: rest =>
    match Argument.ofText text with
    | .terminator => (given.takeOperands accepts rest).map Request.run
    | .plain text => do
      let given ← given.takeOperand accepts text
      readFrom accepts given rest
    | .short letters =>
      if letters.head? = some 'V' then .ok .version else .error (.unexpected text)
    | .long name value =>
      if name = "version".toList then
        if value.isNone then .ok .version else .error (.needlessValue text)
      else if name = "var".toList then
        match value, rest with
        | some value, rest => do
          let given ← given.takeVariable value
          readFrom accepts given rest
        | none, [] => .error (.missingValue text)
        | none, next :: rest =>
          match Argument.ofText next with
          | .plain value => do
            let given ← given.takeVariable value
            readFrom accepts given rest
          | _ => .error (.missingValue text)
      else do
        let given ← given.takeFlag accepts name value
        readFrom accepts given rest

def read (accepts : Accepts) (arguments : List (List Char)) : Except Refusal Request :=
  readFrom accepts Given.empty arguments

end Fluxion.Command
