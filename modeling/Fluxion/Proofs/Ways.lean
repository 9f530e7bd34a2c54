import Fluxion.Proofs.Parts

/-!
# Ways to parts

A way leads from the top of an expression down to one of its parts, first turn
first. Equal parts of an expression lie on different ways, so that one of them
can be replaced and the others kept.

The ways of an expression are listed in the order of the walk: what lies on them,
one after another, is what the walk visits (`Expr.map_at?_ways`). Two ways are
apart if neither begins with the other. What lies on one of them is then not
touched by a replacement on the other (`Expr.at?_replaceAt_of_apart`).
-/

namespace Fluxion

namespace Expr

/-- The part of an expression that lies on a way. -/
def at? : Expr → List Turn → Option Expr
  | e, [] => some e
  | call _ _ arg, .argument :: way => arg.at? way
  | binary _ lhs _, .left :: way => lhs.at? way
  | binary _ _ rhs, .right :: way => rhs.at? way
  | _, _ :: _ => none

/-- An expression with another part on a way. Nothing changes if no part of it
lies there. -/
def replaceAt : Expr → List Turn → Expr → Expr
  | _, [], s => s
  | call c f arg, .argument :: way, s => call c f (arg.replaceAt way s)
  | binary op lhs rhs, .left :: way, s => binary op (lhs.replaceAt way s) rhs
  | binary op lhs rhs, .right :: way, s => binary op lhs (rhs.replaceAt way s)
  | e, _ :: _, _ => e

/-- The ways to the parts of an expression, each behind the ways to the parts of
its part, from left to right. -/
def ways : Expr → List (List Turn)
  | leaf _ => [[]]
  | call _ _ arg => arg.ways.map (.argument :: ·) ++ [[]]
  | binary _ lhs rhs => lhs.ways.map (.left :: ·) ++ rhs.ways.map (.right :: ·) ++ [[]]

variable {e s s' : Expr} {way way' : List Turn}

@[simp] theorem at?_nil (e : Expr) : e.at? [] = some e := by
  cases e <;> rfl

@[simp] theorem replaceAt_nil (e s : Expr) : e.replaceAt [] s = s := by
  cases e <;> rfl

/-- The ways lead to what the walk visits, in its order. -/
theorem map_at?_ways (e : Expr) : e.ways.map e.at? = e.postOrder.map some := by
  rw [postOrder_eq_parts]
  induction e with
  | leaf l => rfl
  | call c f arg ih =>
      have harg : arg.ways.map ((call c f arg).at? ∘ (.argument :: ·)) = arg.parts.map some := ih
      simp only [ways, parts, List.map_append, List.map_map, harg, List.map_cons, List.map_nil,
        at?_nil]
  | binary op lhs rhs ihl ihr =>
      have hl : lhs.ways.map ((binary op lhs rhs).at? ∘ (.left :: ·)) = lhs.parts.map some := ihl
      have hr : rhs.ways.map ((binary op lhs rhs).at? ∘ (.right :: ·)) = rhs.parts.map some := ihr
      simp only [ways, parts, List.map_append, List.map_map, hl, hr, List.map_cons, List.map_nil,
        at?_nil]

/-! ## Replacing -/

/-- What a context keeps: `R` holds between two expressions that differ in one
part if it holds between the parts and can be carried into operands and
arguments. -/
theorem replaceAt_induct {R : Expr → Expr → Prop}
    (call : ∀ c f {a a'}, R a a' → R (.call c f a) (.call c f a'))
    (left : ∀ op {a a'} b, R a a' → R (.binary op a b) (.binary op a' b))
    (right : ∀ op a {b b'}, R b b' → R (.binary op a b) (.binary op a b'))
    (hat : e.at? way = some s) (hs : R s s') : R e (e.replaceAt way s') := by
  induction e, way using at?.induct with
  | case1 e =>
      cases Option.some.inj ((at?_nil e).symm.trans hat)
      rwa [replaceAt_nil]
  | case2 c f arg way ih => exact call c f (ih hat)
  | case3 op lhs rhs way ih => exact left op rhs (ih hat)
  | case4 op lhs rhs way ih => exact right op lhs (ih hat)
  | case5 => simp [at?] at hat

/-- Neither of two ways begins with the other. -/
def Apart (way way' : List Turn) : Prop :=
  ¬ way <+: way' ∧ ¬ way' <+: way

theorem Apart.of_cons {turn : Turn} (h : Apart (turn :: way) (turn :: way')) : Apart way way' := by
  simpa only [Apart, List.cons_prefix_cons, true_and] using h

theorem Apart.exists_cons (h : Apart way way') : ∃ turn rest, way' = turn :: rest :=
  List.exists_cons_of_ne_nil fun hnil => h.2 (hnil ▸ List.nil_prefix)

/-- A part is not touched by a replacement on a way apart from its own. -/
theorem at?_replaceAt_of_apart (h : Apart way way') (e s : Expr) :
    (e.replaceAt way s).at? way' = e.at? way' := by
  obtain ⟨turn', way', rfl⟩ := h.exists_cons
  induction e, way using at?.induct generalizing turn' way' with
  | case1 e => exact absurd List.nil_prefix h.1
  | case2 c f arg way ih =>
      cases turn' with
      | argument =>
          obtain ⟨turn', way', rfl⟩ := h.of_cons.exists_cons
          exact ih turn' way' h.of_cons
      | left | right => rfl
  | case3 op lhs rhs way ih =>
      cases turn' with
      | left =>
          obtain ⟨turn', way', rfl⟩ := h.of_cons.exists_cons
          exact ih turn' way' h.of_cons
      | argument | right => rfl
  | case4 op lhs rhs way ih =>
      cases turn' with
      | right =>
          obtain ⟨turn', way', rfl⟩ := h.of_cons.exists_cons
          exact ih turn' way' h.of_cons
      | argument | left => rfl
  | case5 e turn way => simp only [replaceAt]

end Expr

end Fluxion
