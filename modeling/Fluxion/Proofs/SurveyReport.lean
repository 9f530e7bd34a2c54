import Mathlib
import Fluxion.Command.Survey

/-!
# What a report depends on

The report of a survey depends only on which expressions the file holds. It stays as
it is when lines change places and when lines without an expression come or go. One
such change is an `Edit`; a file may go through any number of them.

While the lines are gone through, nothing is kept but totals. So a tally is told in
full by the derivations of the lines: how many there are, how many lines have none,
and the sum of every size (`Tally.foldl_recordLine`). None of these can tell one order
of the lines from another (`Survey.tally_eq_of_perm`), and an edit leaves the lines
that count as they are but for their order (`Survey.Edit.relevant_perm`).

Means are taken at the very end. Each is the sum of some sizes divided by how many
they are, and the lines that failed are neither in the one nor in the other.
-/

namespace Fluxion

/-! ## Tallies in closed form -/

namespace Derivation

/-- The derivations that lines have. A line that has none adds nothing. -/
def ofLines (lines : List (List Char)) (default : Char) : List Derivation :=
  lines.filterMap fun line => (ofLine line default).toOption

/-- Whether a line has no derivation. -/
def fails (default : Char) (line : List Char) : Bool :=
  (ofLine line default).toOption.isNone

theorem ofLines_perm {ls ms : List (List Char)} (h : ls.Perm ms) (default : Char) :
    (ofLines ls default).Perm (ofLines ms default) :=
  h.filterMap _

/-- A line has a derivation, or it fails. -/
theorem length_ofLines_add_countP (lines : List (List Char)) (default : Char) :
    (ofLines lines default).length + lines.countP (fails default) = lines.length := by
  have hnone : lines.countP (fails default) =
      lines.countP fun line => ¬ (ofLine line default).toOption.isSome := by
    refine List.countP_congr fun line _ => ?_
    simp [fails]
  rw [ofLines, List.length_filterMap_eq_countP, hnone]
  exact (List.length_eq_countP_add_countP _).symm

end Derivation

namespace Size

/-- The sizes of some expressions added up. -/
def total (es : List Expr) : Size :=
  ⟨(es.map (·.nodeCount)).sum, (es.map (·.text.length)).sum⟩

theorem add_def (a b : Size) : a + b = ⟨a.nodes + b.nodes, a.length + b.length⟩ := rfl

theorem zero_add (s : Size) : (⟨0, 0⟩ : Size) + s = s := by
  simp only [add_def, Nat.zero_add]

theorem add_total_cons (s : Size) (e : Expr) (es : List Expr) :
    s + total (e :: es) = s + ofExpr e + total es := by
  simp only [add_def, total, ofExpr, List.map_cons, List.sum_cons, Nat.add_assoc]

theorem total_perm {es fs : List Expr} (h : es.Perm fs) : total es = total fs := by
  rw [total, total, (h.map _).sum_nat, (h.map _).sum_nat]

end Size

namespace Tally

/-- A tally after some derivations and failures, told from where it began. -/
def after (t : Tally) (ds : List Derivation) (failures : Nat) : Tally where
  count := t.count + ds.length
  failures := t.failures + failures
  raw := t.raw + Size.total (ds.map (·.raw))
  reduced := t.reduced + Size.total (ds.map (·.reduction.expr))

/-- A tally of some derivations and failures. -/
theorem empty_after (ds : List Derivation) (failures : Nat) :
    empty.after ds failures = ⟨ds.length, failures, Size.total (ds.map (·.raw)),
      Size.total (ds.map (·.reduction.expr))⟩ := by
  simp only [after, empty, Nat.zero_add, Size.zero_add]

theorem after_perm (t : Tally) {ds ds' : List Derivation} (h : ds.Perm ds') (failures : Nat) :
    t.after ds failures = t.after ds' failures := by
  simp only [after, h.length_eq, Size.total_perm (h.map _)]

/-- What one line does to a tally, whatever lines follow. -/
theorem after_recordLine (t : Tally) (line : List Char) (wrt : Char) (ds : List Derivation)
    (failures : Nat) :
    (t.recordLine line wrt).after ds failures =
      t.after ((Derivation.ofLine line wrt).toOption.toList ++ ds)
        (failures + if Derivation.fails wrt line then 1 else 0) := by
  cases h : Derivation.ofLine line wrt with
  | error problem =>
      simp [recordLine, recordFailure, after, Derivation.fails, h, Except.toOption, Nat.add_assoc,
        Nat.add_comm 1]
  | ok d =>
      simp [recordLine, record, after, Derivation.fails, h, Except.toOption, Nat.add_assoc,
        Nat.add_comm 1, Size.add_total_cons]

theorem foldl_recordLine (lines : List (List Char)) (wrt : Char) (t : Tally) :
    lines.foldl (fun t line => t.recordLine line wrt) t =
      t.after (Derivation.ofLines lines wrt) (lines.countP (Derivation.fails wrt)) := by
  induction lines generalizing t with
  | nil => rfl
  | cons line lines ih =>
      rw [List.foldl_cons, ih, after_recordLine, List.countP_cons, Derivation.ofLines,
        Derivation.ofLines, List.filterMap_cons]
      cases (Derivation.ofLine line wrt).toOption <;> rfl

end Tally

namespace Command.Survey

/-! ## Edits of a file -/

/-- A line without an expression: it is blank, or begins with `#` behind blanks. -/
def BlankOrRemark (line : List Char) : Prop :=
  Text.trim line = [] ∨ (Text.trim line).head? = some '#'

instance : DecidablePred BlankOrRemark :=
  fun line => inferInstanceAs (Decidable (Text.trim line = [] ∨ _))

/-- A change of a file that keeps its expressions, though not their order. -/
inductive Edit : List (List Char) → List (List Char) → Prop where
  | permute {ls ms : List (List Char)} (h : ls.Perm ms) : Edit ls ms
  | insert (before after : List (List Char)) {line : List Char} (h : BlankOrRemark line) :
      Edit (before ++ after) (before ++ line :: after)
  | delete (before after : List (List Char)) {line : List Char} (h : BlankOrRemark line) :
      Edit (before ++ line :: after) (before ++ after)

theorem isSkipped_iff {line : List Char} : isSkipped line = true ↔ BlankOrRemark line := by
  rw [isSkipped, BlankOrRemark]
  cases Text.trim line <;> simp

theorem relevant_insert (before after : List (List Char)) {line : List Char}
    (h : BlankOrRemark line) : relevant (before ++ line :: after) = relevant (before ++ after) := by
  rw [relevant, relevant, List.filter_append, List.filter_append,
    List.filter_cons_of_neg (by simp [isSkipped_iff.mpr h])]

theorem Edit.relevant_perm {ls ms : List (List Char)} (h : Edit ls ms) :
    (relevant ls).Perm (relevant ms) := by
  cases h with
  | permute h => exact h.filter _
  | insert before after h => rw [relevant_insert before after h]
  | delete before after h => rw [relevant_insert before after h]

/-! ## The report -/

theorem tally_eq (s : Survey) (lines : List (List Char)) :
    s.tally lines = Tally.empty.after (Derivation.ofLines (relevant lines) s.wrt)
      ((relevant lines).countP (Derivation.fails s.wrt)) :=
  Tally.foldl_recordLine (relevant lines) s.wrt Tally.empty

theorem tally_eq_of_perm (s : Survey) {ls ms : List (List Char)}
    (h : (relevant ls).Perm (relevant ms)) : s.tally ls = s.tally ms := by
  rw [tally_eq, tally_eq, h.countP_eq, Tally.after_perm _ (Derivation.ofLines_perm h s.wrt)]

theorem tally_eq_of_edits (s : Survey) {ls ms : List (List Char)}
    (h : Relation.ReflTransGen Edit ls ms) : s.tally ls = s.tally ms := by
  induction h with
  | refl => rfl
  | tail _ hedit ih => exact ih.trans (s.tally_eq_of_perm hedit.relevant_perm)

/-- The lines that are neither blank nor remarks. -/
def expressions (lines : List (List Char)) : List (List Char) :=
  lines.filter fun line => ¬ BlankOrRemark line

theorem relevant_eq_expressions (lines : List (List Char)) :
    relevant lines = expressions lines := by
  refine List.filter_congr fun line _ => ?_
  rw [Bool.eq_iff_iff]
  simp [← isSkipped_iff]

/-- The arithmetic mean of sizes, or zero if there are none. -/
def meanOf (sizes : List Nat) : Float :=
  if sizes = [] then 0 else Float.ofNat sizes.sum / Float.ofNat sizes.length

theorem mean_sum {t : Tally} {sizes : List Nat} (h : t.count = sizes.length) :
    t.mean sizes.sum = meanOf sizes := by
  simp only [Tally.mean, meanOf, h, List.length_eq_zero_iff]

/-- A file of text is read, and its tally printed. -/
theorem output_run (s : Survey) {bytes : List UInt8} {lines : List (List Char)}
    (h : Text.lines bytes = lines.map some) :
    (s.run (some bytes)).output = [(s.tally lines).render] := by
  have hlines : (lines.map some).mapM id = some lines := by
    have hpure : lines.mapM (pure : List Char → Option (List Char)) = some (lines.map id) :=
      List.mapM_pure
    rw [List.map_id] at hpure
    rw [List.mapM_map]
    exact hpure
  simp only [run, Option.map_some, h, hlines]

/-- The report of a file is not changed by any edits of its lines, it is all that is
printed, it accounts for every line that is neither blank nor a remark, and its means
are those of the derivations that the lines have. -/
theorem report_of_edits (s : Survey) (lines : List (List Char)) :
    (∀ edited, Relation.ReflTransGen Edit lines edited →
      (s.tally edited).render = (s.tally lines).render) ∧
    (∀ bytes, Text.lines bytes = lines.map some →
      (s.run (some bytes)).output = [(s.tally lines).render]) ∧
    (s.tally lines).count + (s.tally lines).failures = (expressions lines).length ∧
    let t := s.tally lines
    let ds := Derivation.ofLines (expressions lines) s.wrt
    t.count = ds.length ∧
    t.mean t.raw.nodes = meanOf (ds.map (·.raw.nodeCount)) ∧
    t.mean t.raw.length = meanOf (ds.map (·.raw.text.length)) ∧
    t.mean t.reduced.nodes = meanOf (ds.map (·.reduction.expr.nodeCount)) ∧
    t.mean t.reduced.length = meanOf (ds.map (·.reduction.expr.text.length)) := by
  have htally := s.tally_eq lines
  have haccount := Derivation.length_ofLines_add_countP (expressions lines) s.wrt
  rw [relevant_eq_expressions, Tally.empty_after] at htally
  refine ⟨fun edited h => by rw [s.tally_eq_of_edits h], fun bytes => s.output_run, ?_⟩
  simp only [htally, Size.total, List.map_map]
  refine ⟨haccount, trivial, ?_, ?_, ?_, ?_⟩
  all_goals exact mean_sum (by rw [List.length_map])

/-- A file with the lines `x`, `#` and `+`, and one with `+` in front of `x` and nothing
else. Two of the three lines are counted. -/
theorem report_of_edits_remark :
    (run ⟨[], 'x'⟩ (some [43, 10, 120, 10])).output =
        (run ⟨[], 'x'⟩ (some [120, 10, 35, 10, 43, 10])).output ∧
      (tally ⟨[], 'x'⟩ [['x'], ['#'], ['+']]).count +
        (tally ⟨[], 'x'⟩ [['x'], ['#'], ['+']]).failures = 2 := by
  have hlines : Text.lines [120, 10, 35, 10, 43, 10] = [['x'], ['#'], ['+']].map some := by cbv
  have hedited : Text.lines [43, 10, 120, 10] = [['+'], ['x']].map some := by cbv
  have hdelete : Edit [['x'], ['#'], ['+']] [['x'], ['+']] := .delete [['x']] [['+']] (Or.inr rfl)
  have hswap : Edit [['x'], ['+']] [['+'], ['x']] := .permute (.swap ['+'] ['x'] [])
  have hreport := report_of_edits ⟨[], 'x'⟩ [['x'], ['#'], ['+']]
  refine ⟨?_, hreport.2.2.1⟩
  rw [hreport.2.1 _ hlines, (report_of_edits ⟨[], 'x'⟩ _).2.1 _ hedited,
    hreport.1 _ (.tail (.single hdelete) hswap)]

end Command.Survey

end Fluxion
