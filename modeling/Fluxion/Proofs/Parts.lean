import Fluxion.Expr.PostOrder

/-!
# The parts of an expression

A part of an expression is the expression itself, or a part of what it is built
from (`Expr.PartOf`). What holds of every part holds of the expression and
everywhere in what it is built from, so that `Expr.Everywhere` is taken apart
along the expression.

The walk finds these parts and no others (`Expr.mem_postOrder`). Move by move it
leaves the places of the expression in the order of the recursion over it
(`Walk.visits_start`): as long as the place left last is not below the place on top
of the stack, the walk goes through the whole expression there before it looks at
the rest of the stack. With that, the variables that a walk finds are those of the
parts.
-/

namespace Fluxion

namespace Expr

/-- `PartOf s e`: the expression `s` is `e` itself or stands somewhere in it. -/
inductive PartOf : Expr → Expr → Prop where
  | self (e : Expr) : PartOf e e
  | argument {s arg : Expr} (c : Option Float) (f : Func) :
      PartOf s arg → PartOf s (call c f arg)
  | left {s lhs : Expr} (op : Operator) (rhs : Expr) :
      PartOf s lhs → PartOf s (binary op lhs rhs)
  | right {s rhs : Expr} (op : Operator) (lhs : Expr) :
      PartOf s rhs → PartOf s (binary op lhs rhs)

theorem PartOf.trans {r s e : Expr} (hrs : r.PartOf s) (hse : s.PartOf e) : r.PartOf e := by
  induction hse with
  | self => exact hrs
  | argument c f _ ih => exact ih.argument c f
  | left op rhs _ ih => exact ih.left op rhs
  | right op lhs _ ih => exact ih.right op lhs

/-- `P` holds of an expression and of all its parts. -/
def Everywhere (P : Expr → Prop) (e : Expr) : Prop :=
  ∀ s, PartOf s e → P s

variable {P : Expr → Prop} {c : Option Float} {f : Func} {op : Operator} {arg lhs rhs : Expr}

theorem Everywhere.self {e : Expr} (h : e.Everywhere P) : P e :=
  h e (.self e)

theorem everywhere_leaf {l : Leaf} : (leaf l).Everywhere P ↔ P (leaf l) := by
  constructor
  · exact Everywhere.self
  · intro h s hs
    cases hs
    exact h

theorem everywhere_call :
    (call c f arg).Everywhere P ↔ P (call c f arg) ∧ arg.Everywhere P := by
  constructor
  · intro h
    exact ⟨h.self, fun s hs => h s (hs.argument c f)⟩
  · rintro ⟨htop, harg⟩ s hs
    cases hs with
    | self => exact htop
    | argument _ _ hs => exact harg s hs

theorem everywhere_binary : (binary op lhs rhs).Everywhere P ↔
    P (binary op lhs rhs) ∧ lhs.Everywhere P ∧ rhs.Everywhere P := by
  constructor
  · intro h
    exact ⟨h.self, fun s hs => h s (hs.left op rhs), fun s hs => h s (hs.right op lhs)⟩
  · rintro ⟨htop, hl, hr⟩ s hs
    cases hs with
    | self => exact htop
    | left _ _ hs => exact hl s hs
    | right _ _ hs => exact hr s hs

/-! ## The walk -/

/-- The parts of an expression, each after its own parts, from left to right. -/
def parts : Expr → List Expr
  | leaf l => [leaf l]
  | call c f arg => arg.parts ++ [call c f arg]
  | binary op lhs rhs => lhs.parts ++ rhs.parts ++ [binary op lhs rhs]

/-- The places of an expression that lies on `way`, in the order of its parts. -/
def placesFrom (way : List Turn) : Expr → List Place
  | leaf l => [⟨way, leaf l⟩]
  | call c f arg => arg.placesFrom (.argument :: way) ++ [⟨way, call c f arg⟩]
  | binary op lhs rhs =>
    lhs.placesFrom (.left :: way) ++ rhs.placesFrom (.right :: way) ++ [⟨way, binary op lhs rhs⟩]

/-- The places of an expression, each after those of its parts, from left to right. -/
def places (e : Expr) : List Place :=
  e.placesFrom []

theorem map_expr_placesFrom (e : Expr) (way : List Turn) :
    (e.placesFrom way).map (·.expr) = e.parts := by
  induction e generalizing way with
  | leaf l => rfl
  | call c f arg ih =>
      simp only [placesFrom, parts, List.map_append, ih, List.map_cons, List.map_nil]
  | binary op lhs rhs ihl ihr =>
      simp only [placesFrom, parts, List.map_append, ihl, ihr, List.map_cons, List.map_nil]

end Expr

namespace Walk

/-- `w.Visits ps`: the walk `w` comes to an end, and until then it leaves the places
`ps`, in this order. There is one rule for each move of a walk. -/
inductive Visits : Walk → List Place → Prop
  | stop (last : Option (List Turn)) : Visits ⟨[], last⟩ []
  | leave {p : Place} {rest ps : List Place} {last : Option (List Turn)}
      (h : p.isDone last = true) (hrest : Visits ⟨rest, some p.way⟩ ps) :
      Visits ⟨p :: rest, last⟩ (p :: ps)
  | enter {p : Place} {rest ps : List Place} {last : Option (List Turn)}
      (h : p.isDone last = false) (hparts : Visits ⟨p.parts ++ p :: rest, last⟩ ps) :
      Visits ⟨p :: rest, last⟩ ps

theorem Visits.unique {w : Walk} {ps qs : List Place} (hp : w.Visits ps) (hq : w.Visits qs) :
    ps = qs := by
  induction hp generalizing qs with
  | stop last =>
      cases hq
      rfl
  | leave h hrest ih =>
      cases hq with
      | leave _ hrest' => rw [ih hrest']
      | enter h' hparts' => rw [h] at h'; cases h'
  | enter h hparts ih =>
      cases hq with
      | leave h' hrest' => rw [h] at h'; cases h'
      | enter _ hparts' => exact ih hparts'

/-- What a walk visits is what stands at the places it leaves. -/
theorem Visits.toList_eq {w : Walk} {ps : List Place} (h : w.Visits ps) :
    w.toList = ps.map (·.expr) := by
  induction h with
  | stop last => rw [toList, List.map_nil]
  | leave h hrest ih => rw [toList, if_pos h, ih, List.map_cons]
  | enter h hparts ih => rw [toList, if_neg (by simp [h]), ih]

/-- A walk does not come from below `way`. -/
def NotBelow (last : Option (List Turn)) (way : List Turn) : Prop :=
  ∀ w, last = some w → ¬ way <:+ w

theorem NotBelow.cons {last : Option (List Turn)} {way : List Turn} (h : NotBelow last way)
    (turn : Turn) : NotBelow last (turn :: way) :=
  fun w hw hsuffix => h w hw ((List.suffix_cons turn way).trans hsuffix)

theorem notBelow_none (way : List Turn) : NotBelow none way := by
  intro w hw
  cases hw

theorem notBelow_of_ne {way : List Turn} {turn turn' : Turn} (h : turn ≠ turn') :
    NotBelow (some (turn :: way)) (turn' :: way) := by
  intro w hw hsuffix
  cases hw
  exact h (List.cons.inj (hsuffix.eq_of_length rfl)).1.symm

theorem NotBelow.beq_eq_false {last : Option (List Turn)} {way : List Turn} (turn : Turn)
    (h : NotBelow last way) : (last == some (turn :: way)) = false := by
  refine beq_eq_false_iff_ne.mpr ?_
  rintro rfl
  exact h _ rfl (List.suffix_cons turn way)

/-- A walk goes through the expression on top of the stack first. -/
theorem Visits.cons {e : Expr} {way : List Turn} {rest ps : List Place}
    {last : Option (List Turn)} (h : NotBelow last way) (hrest : Visits ⟨rest, some way⟩ ps) :
    Visits ⟨⟨way, e⟩ :: rest, last⟩ (e.placesFrom way ++ ps) := by
  induction e generalizing way rest ps last with
  | leaf l => exact .leave rfl hrest
  | call c f arg ih =>
      have hwaits : Place.isDone ⟨way, .call c f arg⟩ last = false := h.beq_eq_false .argument
      have hdone : Place.isDone ⟨way, .call c f arg⟩ (some (.argument :: way)) = true := by
        simp [Place.isDone, Place.parts]
      rw [Expr.placesFrom, List.append_assoc, List.singleton_append]
      exact .enter hwaits (ih (h.cons _) (.leave hdone hrest))
  | binary op lhs rhs ihl ihr =>
      have hwaits : Place.isDone ⟨way, .binary op lhs rhs⟩ last = false := h.beq_eq_false .right
      have hdone : Place.isDone ⟨way, .binary op lhs rhs⟩ (some (.right :: way)) = true := by
        simp [Place.isDone, Place.parts]
      rw [Expr.placesFrom, List.append_assoc, List.append_assoc, List.singleton_append]
      -- Behind the left operand the walk does not come from below the right one.
      have hbetween : NotBelow (some (.left :: way)) (.right :: way) := notBelow_of_ne (by decide)
      exact .enter hwaits (ihl (h.cons _) (ihr hbetween (.leave hdone hrest)))

theorem visits_start (e : Expr) : (start e).Visits e.places := by
  have h : Visits (start e) (e.places ++ []) := .cons (notBelow_none []) (.stop (some []))
  rwa [List.append_nil] at h

end Walk

namespace Expr

theorem mem_parts_self (e : Expr) : e ∈ e.parts := by
  cases e <;> simp [parts]

theorem postOrder_eq_map_places (e : Expr) : e.postOrder = e.places.map (·.expr) :=
  (Walk.visits_start e).toList_eq

theorem postOrder_eq_parts (e : Expr) : e.postOrder = e.parts := by
  rw [postOrder_eq_map_places, places, map_expr_placesFrom]

theorem length_parts (e : Expr) : e.parts.length = e.size := by
  induction e with
  | leaf l => rfl
  | call c f arg ih => rw [parts, List.length_append, ih]; rfl
  | binary op lhs rhs ihl ihr => rw [parts, List.length_append, List.length_append, ihl, ihr]; rfl

/-- The walk counts as many nodes as the recursion does. -/
theorem nodeCount_eq_size (e : Expr) : e.nodeCount = e.size := by
  rw [nodeCount, postOrder_eq_parts, length_parts]

theorem mem_postOrder {s e : Expr} : s ∈ e.postOrder ↔ s.PartOf e := by
  rw [postOrder_eq_parts]
  constructor
  · intro h
    induction e with
    | leaf l =>
        cases List.mem_singleton.mp h
        exact .self _
    | call c f arg ih =>
        rcases List.mem_append.mp h with h | h
        · exact (ih h).argument c f
        · cases List.mem_singleton.mp h
          exact .self _
    | binary op lhs rhs ihl ihr =>
        rcases List.mem_append.mp h with h | h
        · rcases List.mem_append.mp h with h | h
          · exact (ihl h).left op rhs
          · exact (ihr h).right op lhs
        · cases List.mem_singleton.mp h
          exact .self _
  · intro h
    induction h with
    | self => exact mem_parts_self _
    | argument c f _ ih => exact List.mem_append_left _ ih
    | left op rhs _ ih => exact List.mem_append_left _ (List.mem_append_left _ ih)
    | right op lhs _ ih => exact List.mem_append_left _ (List.mem_append_right _ ih)

/-! ## Variables -/

theorem mem_foldl_distinct {name : Char} (names found : List Char) :
    name ∈ names.foldl (fun found name =>
        if found.contains name then found else found ++ [name]) found ↔
      name ∈ found ∨ name ∈ names := by
  induction names generalizing found with
  | nil => simp
  | cons other names ih =>
      rw [List.foldl_cons, ih, List.mem_cons]
      split
      · next hfound =>
          have hmem : other ∈ found := by simpa using hfound
          constructor
          · rintro (h | h)
            · exact Or.inl h
            · exact Or.inr (Or.inr h)
          · rintro (h | rfl | h)
            · exact Or.inl h
            · exact Or.inl hmem
            · exact Or.inr h
      · rw [List.mem_append, List.mem_singleton, or_assoc]

/-- The variables of an expression are those that are parts of it. -/
theorem mem_letters {name : Char} {e : Expr} :
    name ∈ e.letters ↔ ∃ s : Expr, s.PartOf e ∧ s.letter? = some name := by
  rw [letters, mem_foldl_distinct, List.mem_filterMap]
  simp only [List.not_mem_nil, false_or, mem_postOrder]

theorem PartOf.letters_subset {s e : Expr} (h : s.PartOf e) : s.letters ⊆ e.letters := by
  intro name hname
  obtain ⟨r, hr, hletter⟩ := mem_letters.mp hname
  exact mem_letters.mpr ⟨r, hr.trans h, hletter⟩

theorem mentions_iff {name : Char} {e : Expr} : e.mentions name = true ↔ name ∈ e.letters := by
  rw [mentions, List.any_eq_true, mem_letters]
  simp only [mem_postOrder, beq_iff_eq]

theorem hasVariables_iff {e : Expr} : e.hasVariables = true ↔ ∃ name, name ∈ e.letters := by
  rw [hasVariables, List.any_eq_true]
  simp only [mem_letters, mem_postOrder, Option.isSome_iff_exists]
  constructor
  · rintro ⟨s, hs, name, hname⟩
    exact ⟨name, s, hs, hname⟩
  · rintro ⟨name, s, hs, hname⟩
    exact ⟨s, hs, name, hname⟩

theorem mem_letters_leaf {name : Char} {l : Leaf} :
    name ∈ (leaf l).letters ↔ l.letter? = some name := by
  rw [mem_letters]
  constructor
  · rintro ⟨s, hs, hname⟩
    cases hs
    exact hname
  · intro h
    exact ⟨_, .self _, h⟩

theorem mem_letters_call {name : Char} : name ∈ (call c f arg).letters ↔ name ∈ arg.letters := by
  rw [mem_letters, mem_letters]
  constructor
  · rintro ⟨s, hs, hname⟩
    cases hs with
    | self => cases hname
    | argument _ _ hs => exact ⟨s, hs, hname⟩
  · rintro ⟨s, hs, hname⟩
    exact ⟨s, hs.argument c f, hname⟩

theorem mem_letters_binary {name : Char} :
    name ∈ (binary op lhs rhs).letters ↔ name ∈ lhs.letters ∨ name ∈ rhs.letters := by
  simp only [mem_letters]
  constructor
  · rintro ⟨s, hs, hname⟩
    cases hs with
    | self => cases hname
    | left _ _ hs => exact Or.inl ⟨s, hs, hname⟩
    | right _ _ hs => exact Or.inr ⟨s, hs, hname⟩
  · rintro (⟨s, hs, hname⟩ | ⟨s, hs, hname⟩)
    · exact ⟨s, hs.left op rhs, hname⟩
    · exact ⟨s, hs.right op lhs, hname⟩

/-- Names that are put behind those found so far, unless they are among them, come in the
order of their first occurrence. -/
theorem pairwise_foldl_distinct {all found : List Char} (names met : List Char)
    (hall : all = met ++ names) (hmem : ∀ name, name ∈ found ↔ name ∈ met)
    (h : found.Pairwise fun a b => all.idxOf a < all.idxOf b) :
    (names.foldl (fun found name =>
        if found.contains name then found else found ++ [name]) found).Pairwise
      fun a b => all.idxOf a < all.idxOf b := by
  induction names generalizing met found with
  | nil => exact h
  | cons name names ih =>
      have hall' : all = (met ++ [name]) ++ names := by rw [hall, List.append_assoc]; rfl
      rw [List.foldl_cons]
      split
      · next hfound =>
          have hold : name ∈ met := (hmem name).mp (by simpa using hfound)
          refine ih (met ++ [name]) hall' (fun other => ?_) h
          rw [hmem, List.mem_append, List.mem_singleton]
          exact ⟨Or.inl, fun hor => hor.elim id fun heq => heq ▸ hold⟩
      · next hfound =>
          have hnew : name ∉ met := fun hold => hfound (by simpa using (hmem name).mpr hold)
          refine ih (met ++ [name]) hall' (fun other => ?_) ?_
          · simp only [List.mem_append, hmem]
          · refine List.pairwise_append.mpr ⟨h, List.pairwise_singleton _ name, ?_⟩
            intro a ha b hb
            obtain rfl := List.mem_singleton.mp hb
            have hold : a ∈ met := (hmem a).mp ha
            calc all.idxOf a = met.idxOf a := by rw [hall, List.idxOf_append, if_pos hold]
              _ < met.length := List.idxOf_lt_length_of_mem hold
              _ ≤ all.idxOf b := by
                rw [hall, List.idxOf_append, if_neg hnew]
                exact Nat.le_add_left ..

/-- The variables are listed in the order in which a walk first meets them. -/
theorem pairwise_letters (e : Expr) : e.letters.Pairwise fun a b =>
    (e.postOrder.filterMap letter?).idxOf a < (e.postOrder.filterMap letter?).idxOf b :=
  pairwise_foldl_distinct _ [] rfl (fun _ => Iff.rfl) .nil

theorem nodup_letters (e : Expr) : e.letters.Nodup :=
  (pairwise_letters e).imp fun hlt heq => absurd (heq ▸ hlt) (Nat.lt_irrefl _)

/-- Equal expressions have the same variables, in the same order. -/
theorem letters_of_beq {e e' : Expr} (h : (e == e') = true) : e.letters = e'.letters := by
  have hparts : e.parts.filterMap letter? = e'.parts.filterMap letter? := by
    refine rec_of_beq (motive := fun e e' => e.parts.filterMap letter? = e'.parts.filterMap letter?)
      (fun l l' hl => ?_) ?_ ?_ h
    · have hletter : l.letter? = l'.letter? := by
        refine Leaf.rec_of_beq (motive := fun l l' => l.letter? = l'.letter?) ?_ ?_ ?_ ?_ hl <;>
          intros <;> rfl
      rw [parts, parts, List.filterMap_cons, List.filterMap_cons]
      simp only [letter?, hletter]
    · intro c d f g a b _ _ hab
      simp only [parts, List.filterMap_append, hab]
      rfl
    · intro op a b a' b' ha hb
      simp only [parts, List.filterMap_append, ha, hb]
      rfl
  rw [letters, letters, postOrder_eq_parts, postOrder_eq_parts, hparts]

theorem forall_letters_call {p : Char → Prop} :
    (∀ name ∈ (call c f arg).letters, p name) ↔ ∀ name ∈ arg.letters, p name := by
  simp only [mem_letters_call]

theorem forall_letters_binary {p : Char → Prop} :
    (∀ name ∈ (binary op lhs rhs).letters, p name) ↔
      (∀ name ∈ lhs.letters, p name) ∧ ∀ name ∈ rhs.letters, p name := by
  simp only [mem_letters_binary, or_imp, forall_and]

/-! ## Leaves -/

def leaf? : Expr → Option Leaf
  | leaf l => some l
  | _ => none

/-- The leaves of an expression, from left to right. -/
def leaves : Expr → List Leaf
  | leaf l => [l]
  | call _ _ arg => arg.leaves
  | binary _ lhs rhs => lhs.leaves ++ rhs.leaves

/-- The walk comes to the leaves in their order. -/
theorem filterMap_leaf?_postOrder (e : Expr) : e.postOrder.filterMap leaf? = e.leaves := by
  rw [postOrder_eq_parts]
  induction e with
  | leaf l => rfl
  | call c f arg ih => simp [parts, leaves, leaf?, List.filterMap_append, ih]
  | binary op lhs rhs ihl ihr => simp [parts, leaves, leaf?, List.filterMap_append, ihl, ihr]

theorem mem_leaves {l : Leaf} {e : Expr} : l ∈ e.leaves ↔ (leaf l).PartOf e := by
  rw [← filterMap_leaf?_postOrder, List.mem_filterMap]
  simp only [mem_postOrder]
  constructor
  · rintro ⟨s, hs, hl⟩
    match s with
    | .leaf _ =>
        cases hl
        exact hs
    | .call _ _ _ | .binary _ _ _ => cases hl
  · intro h
    exact ⟨leaf l, h, rfl⟩

/-- The variables of an expression are those of its leaves. -/
theorem mem_letters_iff_leaves {name : Char} {e : Expr} :
    name ∈ e.letters ↔ ∃ l ∈ e.leaves, l.letter? = some name := by
  rw [mem_letters]
  constructor
  · rintro ⟨s, hs, hname⟩
    match s with
    | .leaf l => exact ⟨l, mem_leaves.mpr hs, hname⟩
    | .call _ _ _ | .binary _ _ _ => cases hname
  · rintro ⟨l, hl, hname⟩
    exact ⟨.leaf l, mem_leaves.mp hl, hname⟩

end Expr

end Fluxion
