import Fluxion.Expr.Basic

/-!
# Walking through an expression

A walk visits every node of an expression after the parts of the node, from left
to right, and needs no recursion: it keeps a stack of places still to be left
and remembers the place it left last. A node is left when its last part has just
been left; until then its parts are put on the stack. Places are told apart by
the way that leads to them, so equal parts of an expression are never taken for
one another.

The walk ends from whatever stack it starts with, because every move shrinks
`Walk.work`: a place whose last part was the one left before it counts one, and
any other place counts twice its nodes.
-/

namespace Fluxion

/-- A turn on the way down from a node. -/
inductive Turn where
  | argument
  | left
  | right
deriving DecidableEq, Repr

/-- A node of an expression, with the way that leads to it, last turn first. -/
structure Place where
  way : List Turn
  expr : Expr

namespace Place

/-- The parts of a node from left to right. -/
def parts (p : Place) : List Place :=
  match p.expr with
  | .leaf _ => []
  | .call _ _ arg => [⟨.argument :: p.way, arg⟩]
  | .binary _ lhs rhs => [⟨.left :: p.way, lhs⟩, ⟨.right :: p.way, rhs⟩]

/-- A node has no part that is still to be left, if the place left last is at
`last`. -/
def isDone (p : Place) (last : Option (List Turn)) : Bool :=
  match p.parts.getLast? with
  | none => true
  | some part => last == some part.way

end Place

/-- The number of nodes of an expression, counted by recursion. -/
def Expr.size : Expr → Nat
  | leaf _ => 1
  | call _ _ arg => arg.size + 1
  | binary _ lhs rhs => lhs.size + rhs.size + 1

theorem Expr.size_pos (e : Expr) : 0 < e.size := by
  cases e <;> simp [Expr.size]

/-- A walk under way: the places still to be left, the next one first, and the
way to the place left last. -/
structure Walk where
  stack : List Place
  last : Option (List Turn)

namespace Walk

/-- A walk that is about to begin at the top of an expression. -/
def start (e : Expr) : Walk :=
  ⟨[⟨[], e⟩], none⟩

/-- What a place adds to the work ahead when `last` is left just before it is
looked at. -/
def load (p : Place) (last : Option (List Turn)) : Nat :=
  if p.isDone last then 1 else 2 * p.expr.size

theorem load_pos (p : Place) (last : Option (List Turn)) : 0 < load p last := by
  have := p.expr.size_pos
  unfold load
  split <;> omega

theorem load_le (p : Place) (last : Option (List Turn)) : load p last ≤ 2 * p.expr.size := by
  have := p.expr.size_pos
  unfold load
  split <;> omega

/-- The work ahead of a walk. The place left before another one is the place
above it on the stack. -/
def workFrom (last : Option (List Turn)) : List Place → Nat
  | [] => 0
  | p :: rest => load p last + workFrom (some p.way) rest

/-- The work ahead of a walk. -/
def work (w : Walk) : Nat :=
  workFrom w.last w.stack

/-- Putting the parts of a node on the stack shrinks the work ahead. -/
theorem workFrom_parts_lt {p : Place} {rest : List Place} {last : Option (List Turn)}
    (h : p.isDone last = false) :
    workFrom last (p.parts ++ p :: rest) < workFrom last (p :: rest) := by
  have whole : load p last = 2 * p.expr.size := by simp [load, h]
  match p with
  | ⟨way, .leaf l⟩ => simp [Place.isDone, Place.parts] at h
  | ⟨way, .call c f arg⟩ =>
    have done : load ⟨way, .call c f arg⟩ (some (.argument :: way)) = 1 := by
      simp [load, Place.isDone, Place.parts]
    have small := load_le ⟨.argument :: way, arg⟩ last
    simp only [Place.parts, List.cons_append, List.nil_append, workFrom, done, whole, Expr.size]
      at small ⊢
    omega
  | ⟨way, .binary op lhs rhs⟩ =>
    have done : load ⟨way, .binary op lhs rhs⟩ (some (.right :: way)) = 1 := by
      simp [load, Place.isDone, Place.parts]
    have small₁ := load_le ⟨.left :: way, lhs⟩ last
    have small₂ := load_le ⟨.right :: way, rhs⟩ (some (.left :: way))
    simp only [Place.parts, List.cons_append, List.nil_append, workFrom, done, whole, Expr.size]
      at small₁ small₂ ⊢
    omega

/-- The expressions a walk has yet to visit, in order. -/
def toList (w : Walk) : List Expr :=
  match w with
  | ⟨[], _⟩ => []
  | ⟨p :: rest, last⟩ =>
    if p.isDone last then p.expr :: toList ⟨rest, some p.way⟩
    else toList ⟨p.parts ++ p :: rest, last⟩
termination_by w.work
decreasing_by
  · have := load_pos p last
    simp only [work, workFrom]
    omega
  · exact workFrom_parts_lt (by simp_all)

end Walk

namespace Expr

/-- Every part of an expression and itself, each after its own parts, from left
to right. -/
def postOrder (e : Expr) : List Expr :=
  (Walk.start e).toList

/-- The number of nodes of an expression. -/
def nodeCount (e : Expr) : Nat :=
  e.postOrder.length

/-- Whether a variable occurs in an expression. -/
def mentions (e : Expr) (name : Char) : Bool :=
  e.postOrder.any fun part => part.letter? == some name

/-- Whether any variable occurs in an expression. -/
def hasVariables (e : Expr) : Bool :=
  e.postOrder.any fun part => part.letter?.isSome

/-- The distinct variables of an expression, in order of their first occurrence
from the left. -/
def letters (e : Expr) : List Char :=
  (e.postOrder.filterMap letter?).foldl (fun found name =>
    if found.contains name then found else found ++ [name]) []

end Expr

end Fluxion
