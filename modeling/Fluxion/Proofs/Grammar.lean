import Fluxion.Token.Basic

/-!
# The grammar of expressions

What a list of tokens has to look like to be an expression, told without the
two stacks of the reader. There are four levels of phrases, each built from the
tighter ones:

* a sum is a product, or a sum, `+` or `-`, and a product;
* a product is a power, or a product, `*` or `/`, and a power;
* a power is an atom, or an atom, `^` and a power;
* an atom is an operand, a sum in parentheses, or the name of a function and a
  sum in parentheses.

A `Phrase` is one derivation of this grammar, as a value: it knows the tokens it
is written with and the expression it stands for. Parentheses are tokens of a
phrase and leave nothing in its expression.

Which operator may stand where is said once, by the level of the phrases an
operator builds and takes. The reader knows nothing of levels and compares
precedences instead; `Operator.before_of_level_le` and
`Operator.not_before_of_fits` are the two facts that tie them together.
-/

namespace Fluxion

namespace Token

/-- The leaf that a token is as an operand: a number that a float can hold, an
unknown derivative, or a name that calls no function. -/
def operand? (t : Token) : Option Leaf :=
  match t.kind with
  | .number => ((Decimal.read? t.lexeme).filter Float.isFinite).map Leaf.number
  | .leibniz => Leaf.ofLeibniz? t.lexeme
  | .name => if (CallName.ofName? t.lexeme).isSome then none else Leaf.ofName? t.lexeme
  | _ => none

/-- The function that a token calls, with its coefficient. -/
def call? (t : Token) : Option CallName :=
  match t.kind with
  | .name => CallName.ofName? t.lexeme
  | _ => none

end Token

/-- How loosely the parts of a phrase hang together. -/
inductive Level where
  | atom
  | power
  | product
  | sum
deriving DecidableEq, Repr

/-- The looser of two levels has the greater rank. -/
def Level.rank : Level → Nat
  | atom => 0
  | power => 1
  | product => 2
  | sum => 3

namespace Operator

/-- The level of the phrases that an operator builds. -/
def level : Operator → Level
  | add | sub => .sum
  | mul | div => .product
  | pow => .power

/-- The level of what may stand in front of an operator. -/
def leftLevel : Operator → Level
  | add | sub => .sum
  | mul | div => .product
  | pow => .atom

/-- The level of what may stand behind an operator. -/
def rightLevel : Operator → Level
  | add | sub => .product
  | mul | div | pow => .power

/-- An operator that may occur on the left of another one takes its operands
first. -/
theorem before_of_level_le {first next : Operator}
    (h : first.level.rank ≤ next.leftLevel.rank) : first.Before next := by
  cases first <;> cases next <;>
    simp only [level, leftLevel, Level.rank] at h <;> first | decide | omega

/-- An operator whose phrases may stand behind another one goes before it. -/
theorem not_before_of_fits {first next : Operator}
    (h : next.level.rank ≤ first.rightLevel.rank) : ¬ first.Before next := by
  cases first <;> cases next <;>
    simp only [level, rightLevel, Level.rank] at h <;> first | decide | omega

theorem level_le_leftLevel_of_before {first next : Operator} (h : first.Before next) :
    first.level.rank ≤ next.leftLevel.rank := by
  revert h
  cases first <;> cases next <;> decide

theorem level_le_rightLevel_of_not_before {first next : Operator}
    (h : ¬ first.Before next) : next.level.rank ≤ first.rightLevel.rank := by
  revert h
  cases first <;> cases next <;> decide

end Operator

/-- A derivation of the grammar. -/
inductive Phrase : Level → Type where
  | operand (t : Token) (l : Leaf) (ht : t.operand? = some l) : Phrase .atom
  | group (opening : Token) (inside : Phrase .sum) (closing : Token)
      (ho : opening.kind = .openParen) (hc : closing.kind = .closeParen) : Phrase .atom
  | call (name : Token) (call : CallName) (opening : Token) (inside : Phrase .sum)
      (closing : Token) (hn : name.call? = some call) (ho : opening.kind = .openParen)
      (hc : closing.kind = .closeParen) : Phrase .atom
  | ofAtom (a : Phrase .atom) : Phrase .power
  | raise (base : Phrase .atom) (t : Token) (exponent : Phrase .power)
      (ht : t.kind = .operator .pow) : Phrase .power
  | ofPower (p : Phrase .power) : Phrase .product
  | multiply (lhs : Phrase .product) (op : Operator) (t : Token) (rhs : Phrase .power)
      (hop : op = .mul ∨ op = .div) (ht : t.kind = .operator op) : Phrase .product
  | ofProduct (p : Phrase .product) : Phrase .sum
  | add (lhs : Phrase .sum) (op : Operator) (t : Token) (rhs : Phrase .product)
      (hop : op = .add ∨ op = .sub) (ht : t.kind = .operator op) : Phrase .sum

namespace Phrase

/-- The tokens a phrase is written with. -/
def tokens {l : Level} : Phrase l → List Token
  | operand t _ _ => [t]
  | group opening inside closing _ _ => opening :: (inside.tokens ++ [closing])
  | call name _ opening inside closing _ _ _ =>
    name :: opening :: (inside.tokens ++ [closing])
  | ofAtom a => a.tokens
  | raise base t exponent _ => base.tokens ++ t :: exponent.tokens
  | ofPower p => p.tokens
  | multiply lhs _ t rhs _ _ => lhs.tokens ++ t :: rhs.tokens
  | ofProduct p => p.tokens
  | add lhs _ t rhs _ _ => lhs.tokens ++ t :: rhs.tokens

/-- The expression a phrase stands for. -/
def tree {l : Level} : Phrase l → Expr
  | operand _ l _ => .leaf l
  | group _ inside _ _ _ => inside.tree
  | call _ c _ inside _ _ _ _ => .call c.coefficient c.func inside.tree
  | ofAtom a => a.tree
  | raise base _ exponent _ => .binary .pow base.tree exponent.tree
  | ofPower p => p.tree
  | multiply lhs op _ rhs _ _ => .binary op lhs.tree rhs.tree
  | ofProduct p => p.tree
  | add lhs op _ rhs _ _ => .binary op lhs.tree rhs.tree

theorem tokens_ne_nil {l : Level} (p : Phrase l) : p.tokens ≠ [] := by
  induction p <;> simp_all [tokens]

/-- A phrase is one of every looser level. -/
theorem exists_of_rank_le {l l' : Level} (p : Phrase l) (h : l.rank ≤ l'.rank) :
    ∃ p' : Phrase l', p'.tokens = p.tokens ∧ p'.tree = p.tree := by
  cases l <;> cases l' <;> simp only [Level.rank] at h <;> try omega
  case atom.atom | power.power | product.product | sum.sum => exact ⟨p, rfl, rfl⟩
  case atom.power => exact ⟨.ofAtom p, rfl, rfl⟩
  case atom.product => exact ⟨.ofPower (.ofAtom p), rfl, rfl⟩
  case atom.sum => exact ⟨.ofProduct (.ofPower (.ofAtom p)), rfl, rfl⟩
  case power.product => exact ⟨.ofPower p, rfl, rfl⟩
  case power.sum => exact ⟨.ofProduct (.ofPower p), rfl, rfl⟩
  case product.sum => exact ⟨.ofProduct p, rfl, rfl⟩

/-- An operator between two phrases of its levels builds a phrase of its own. -/
theorem exists_binary {op : Operator} (lhs : Phrase op.leftLevel) {t : Token}
    (ht : t.kind = .operator op) (rhs : Phrase op.rightLevel) :
    ∃ p : Phrase op.level, p.tokens = lhs.tokens ++ t :: rhs.tokens ∧
      p.tree = .binary op lhs.tree rhs.tree := by
  cases op with
  | add => exact ⟨.add lhs .add t rhs (Or.inl rfl) ht, rfl, rfl⟩
  | sub => exact ⟨.add lhs .sub t rhs (Or.inr rfl) ht, rfl, rfl⟩
  | mul => exact ⟨.multiply lhs .mul t rhs (Or.inl rfl) ht, rfl, rfl⟩
  | div => exact ⟨.multiply lhs .div t rhs (Or.inr rfl) ht, rfl, rfl⟩
  | pow => exact ⟨.raise lhs t rhs ht, rfl, rfl⟩

end Phrase

end Fluxion
