import Fluxion.Proofs.Ways
import Mathlib.Data.List.Nodup

/-!
# The order of a walk

A walk that keeps a stack and remembers one place does what a recursion would do: it
leaves every place of an expression once, behind the places of its parts, and the
left operand before the right one. Nothing is skipped or seen twice where equal parts
stand in several places, as the walk tells places apart by the way to them and never by
what stands there.

So whatever is read off a walk is read off the expression from left to right. The
variables that are found are listed in the order in which each of them is written
first (`Expr.pairwise_letters_written`).
-/

namespace Fluxion

namespace Expr

variable {e s : Expr} {way down : List Turn} {p : Place}

/-! ## Every place once -/

theorem nodup_ways (e : Expr) : e.ways.Nodup := by
  induction e with
  | leaf l => exact List.nodup_singleton []
  | call c f arg ih =>
      refine List.nodup_append.mpr ⟨ih.map List.cons_injective, List.nodup_singleton [], ?_⟩
      simp
  | binary op lhs rhs ihl ihr =>
      have hsides : (lhs.ways.map (.left :: ·) ++ rhs.ways.map (.right :: ·)).Nodup := by
        refine List.nodup_append.mpr ⟨ihl.map List.cons_injective, ihr.map List.cons_injective, ?_⟩
        simp
      refine List.nodup_append.mpr ⟨hsides, List.nodup_singleton [], ?_⟩
      rintro _ hmem _ hnil rfl
      obtain rfl := List.mem_singleton.mp hnil
      simp at hmem

/-- The places lie on the ways, which a place tells the other way round. -/
theorem map_way_placesFrom (e : Expr) (way : List Turn) :
    (e.placesFrom way).map (·.way) = e.ways.map fun down => down.reverse ++ way := by
  induction e generalizing way with
  | leaf l => rfl
  | call c f arg ih => simp [placesFrom, ways, ih, Function.comp_def]
  | binary op lhs rhs ihl ihr => simp [placesFrom, ways, ihl, ihr, Function.comp_def]

theorem nodup_map_way_places (e : Expr) : (e.places.map (·.way)).Nodup := by
  simp only [places, map_way_placesFrom, List.append_nil]
  exact e.nodup_ways.map List.reverse_injective

theorem self_mem_placesFrom (e : Expr) (way : List Turn) : ⟨way, e⟩ ∈ e.placesFrom way := by
  cases e <;> simp [placesFrom]

theorem mem_placesFrom_of_at? (h : e.at? down = some s) :
    ⟨down.reverse ++ way, s⟩ ∈ e.placesFrom way := by
  induction e, down using at?.induct generalizing way with
  | case1 e =>
      cases Option.some.inj ((at?_nil e).symm.trans h)
      exact self_mem_placesFrom _ way
  | case2 c f arg down ih =>
      rw [List.reverse_cons, List.append_assoc, placesFrom]
      exact List.mem_append_left _ (ih h)
  | case3 op lhs rhs down ih =>
      rw [List.reverse_cons, List.append_assoc, placesFrom]
      exact List.mem_append_left _ (List.mem_append_left _ (ih h))
  | case4 op lhs rhs down ih =>
      rw [List.reverse_cons, List.append_assoc, placesFrom]
      exact List.mem_append_left _ (List.mem_append_right _ (ih h))
  | case5 => simp [at?] at h

theorem exists_at?_of_mem_placesFrom (h : p ∈ e.placesFrom way) :
    ∃ down, p.way = down.reverse ++ way ∧ e.at? down = some p.expr := by
  induction e generalizing way with
  | leaf l =>
      obtain rfl := List.mem_singleton.mp h
      exact ⟨[], rfl, rfl⟩
  | call c f arg ih =>
      rcases List.mem_append.mp h with h | h
      · obtain ⟨down, hway, hat⟩ := ih h
        exact ⟨.argument :: down, by simp [hway], hat⟩
      · obtain rfl := List.mem_singleton.mp h
        exact ⟨[], rfl, rfl⟩
  | binary op lhs rhs ihl ihr =>
      rcases List.mem_append.mp h with h | h
      · rcases List.mem_append.mp h with h | h
        · obtain ⟨down, hway, hat⟩ := ihl h
          exact ⟨.left :: down, by simp [hway], hat⟩
        · obtain ⟨down, hway, hat⟩ := ihr h
          exact ⟨.right :: down, by simp [hway], hat⟩
      · obtain rfl := List.mem_singleton.mp h
        exact ⟨[], rfl, rfl⟩

/-- The places of an expression are those that its ways lead to. -/
theorem mem_places : p ∈ e.places ↔ e.at? p.way.reverse = some p.expr := by
  constructor
  · intro h
    obtain ⟨down, hway, hat⟩ := exists_at?_of_mem_placesFrom h
    rwa [hway, List.append_nil, List.reverse_reverse]
  · intro h
    have hmem : ⟨p.way.reverse.reverse ++ [], p.expr⟩ ∈ e.places := mem_placesFrom_of_at? h
    rwa [List.reverse_reverse, List.append_nil] at hmem

/-! ## Parts first -/

/-- In front of every place in a list stand the places of its parts. -/
def PartsFirst (ps : List Place) : Prop :=
  ∀ before p after, ps = before ++ p :: after → ∀ part ∈ p.parts, part ∈ before

theorem partsFirst_nil : PartsFirst [] := by
  intro before p after h
  simp at h

theorem PartsFirst.append {ps qs : List Place} (hps : PartsFirst ps) (hqs : PartsFirst qs) :
    PartsFirst (ps ++ qs) := by
  intro before p after h part hpart
  rcases List.append_eq_append_iff.mp h with ⟨front, rfl, hq⟩ | ⟨back, hp, hback⟩
  · exact List.mem_append_right _ (hqs front p after hq part hpart)
  · cases back with
    | nil =>
        have hmem := hqs [] p after hback.symm part hpart
        cases hmem
    | cons q back =>
        obtain ⟨rfl, -⟩ := List.cons.inj hback
        exact hps before p back hp part hpart

theorem PartsFirst.concat {ps : List Place} (hps : PartsFirst ps)
    (hparts : ∀ part ∈ p.parts, part ∈ ps) : PartsFirst (ps ++ [p]) := by
  intro before q after h part hpart
  rcases List.eq_nil_or_concat after with rfl | ⟨after, last, rfl⟩
  · obtain ⟨rfl, hq⟩ := List.append_inj' h rfl
    obtain rfl := (List.cons.inj hq).1
    exact hparts part hpart
  · rw [List.concat_eq_append, ← List.cons_append, ← List.append_assoc] at h
    obtain ⟨rfl, -⟩ := List.append_inj' h rfl
    exact hps before q after rfl part hpart

theorem partsFirst_placesFrom (e : Expr) (way : List Turn) : PartsFirst (e.placesFrom way) := by
  induction e generalizing way with
  | leaf l => exact partsFirst_nil.concat fun part hpart => absurd hpart List.not_mem_nil
  | call c f arg ih =>
      refine (ih _).concat fun part hpart => ?_
      obtain rfl := List.mem_singleton.mp hpart
      exact self_mem_placesFrom arg _
  | binary op lhs rhs ihl ihr =>
      refine ((ihl _).append (ihr _)).concat fun part hpart => ?_
      rcases List.mem_cons.mp hpart with rfl | hpart
      · exact List.mem_append_left _ (self_mem_placesFrom lhs _)
      · obtain rfl := List.mem_singleton.mp hpart
        exact List.mem_append_right _ (self_mem_placesFrom rhs _)

/-! ## Variables in the order of their first occurrence -/

/-- The variables of an expression as they are written, from left to right. -/
def writtenLetters (e : Expr) : List Char :=
  e.leaves.filterMap Leaf.letter?

theorem filterMap_letter?_postOrder (e : Expr) :
    e.postOrder.filterMap letter? = e.writtenLetters := by
  rw [writtenLetters, ← filterMap_leaf?_postOrder, List.filterMap_filterMap]
  congr 1
  funext part
  cases part <;> rfl

theorem pairwise_letters_written (e : Expr) :
    e.letters.Pairwise fun a b => e.writtenLetters.idxOf a < e.writtenLetters.idxOf b := by
  rw [← filterMap_letter?_postOrder]
  exact pairwise_letters e

theorem mem_writtenLetters {name : Char} : name ∈ e.writtenLetters ↔ name ∈ e.letters := by
  rw [mem_letters_iff_leaves, writtenLetters, List.mem_filterMap]

/-- A walk comes to an end, and it leaves the places of the expression as the recursion
lists them: each of them once, and those of its parts before it. So the nodes that are
counted are those of the recursion, and the variables that are found are those that are
written, without repetition and in the order of their first occurrence. -/
theorem visits_iff_and_letters (e : Expr) :
    ((∀ ps, (Walk.start e).Visits ps ↔ ps = e.places) ∧ e.postOrder = e.places.map (·.expr)) ∧
    ((e.places.map (·.way)).Nodup ∧
      (∀ p, p ∈ e.places ↔ e.at? p.way.reverse = some p.expr) ∧ PartsFirst e.places) ∧
    e.nodeCount = e.size ∧
    (e.letters.Nodup ∧ (∀ name, name ∈ e.letters ↔ name ∈ e.writtenLetters) ∧
      e.letters.Pairwise fun a b => e.writtenLetters.idxOf a < e.writtenLetters.idxOf b) ∧
    (∀ name, e.mentions name = true ↔ name ∈ e.letters) ∧
    (e.hasVariables = true ↔ e.letters ≠ []) := by
  refine ⟨⟨fun ps => ⟨fun h => h.unique (Walk.visits_start e), ?_⟩, postOrder_eq_map_places e⟩,
    ⟨nodup_map_way_places e, fun p => mem_places, partsFirst_placesFrom e []⟩,
    nodeCount_eq_size e,
    ⟨nodup_letters e, fun name => mem_writtenLetters.symm, pairwise_letters_written e⟩,
    fun name => mentions_iff, ?_⟩
  · rintro rfl
    exact Walk.visits_start e
  · rw [hasVariables_iff]
    exact ⟨fun ⟨name, hname⟩ => List.ne_nil_of_mem hname, List.exists_mem_of_ne_nil _⟩

/-- The two operands are equal, and each of them is left at its own place. -/
example : (var none 'x' + var none 'x').places.map (·.way) = [[.left], [.right], []] := rfl

end Expr

end Fluxion
