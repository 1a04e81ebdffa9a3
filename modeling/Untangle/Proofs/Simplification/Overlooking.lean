import Untangle.Proofs.Simplification.Sweep
import Untangle.Proofs.Simplification.Tidying

/-!
# Rules look past labels that nothing refers to

Between an instruction and its operand there may be labels that nothing refers to. Whether they are there or
not, a rule on literals finds the same operands and does the same with them. So a body in which no rule
applies is still one when these labels are gone.
-/

namespace Untangle

open List Operand

variable {b : Body} {rule : (Label → Bool) → Rule}

theorem Rule.le_sweep (rule : Rule) (changes : Nat) (passed ns : List Node) :
    changes ≤ (rule.sweep changes passed ns).1 := by
  induction ns generalizing changes passed with
  | nil => exact le_rfl
  | cons n _ ih =>
    rw [sweep]
    cases rule passed n with
    | none => exact ih changes _
    | some passed' => exact Nat.le_of_succ_le (ih (changes + 1) passed')

/-- It makes no difference to the rule whether the nodes that fail the test have been taken out before. -/
def Rule.Overlooks (rule : Rule) (test : Node → Bool) : Prop :=
  ∀ passed n, rule (passed.filter test) n = (rule passed n).map (List.filter test)

/-- A rule that applies nowhere applies nowhere once nodes that it overlooks are taken out. -/
theorem Rule.Overlooks.sweep {rule : Rule} (h : rule.Overlooks test) {changes : Nat} {passed ns : List Node}
    (hnone : (rule.sweep changes passed ns).1 = changes) :
    (rule.sweep changes (passed.filter test) (ns.filter test)).1 = changes := by
  induction ns generalizing passed with
  | nil => rfl
  | cons n rest ih =>
    rw [Rule.sweep] at hnone
    cases hr : rule passed n with
    | some passed' =>
      rw [hr] at hnone
      have := rule.le_sweep (changes + 1) passed' rest
      dsimp only at hnone
      omega
    | none =>
      rw [hr] at hnone
      have hrest := ih hnone
      by_cases hn : test n = true
      · rw [filter_cons_of_pos hn, Rule.sweep, h passed n, hr]
        rwa [filter_cons_of_pos hn] at hrest
      · rw [filter_cons_of_neg hn]
        rwa [filter_cons_of_neg hn] at hrest

/-- Only labels that nothing refers to fail the test. -/
def KeepsReferenced (referenced : Label → Bool) (test : Node → Bool) : Prop :=
  ∀ n, test n = true ∨ ∃ l, n.content = some (.label l) ∧ referenced l = false

namespace Operand

/-- The operand, with nodes taken out around it. -/
def filter (o : Operand) (test : Node → Bool) : Operand :=
  { o with between := o.between.filter test, before := o.before.filter test }

variable {referenced : Label → Bool} {test : Node → Bool} (ht : KeepsReferenced referenced test)

include ht

theorem test_of_not_isRemark {n : Node} (hr : ¬ isRemark referenced n = true) : test n = true := by
  rcases ht n with h | ⟨l, hl, href⟩
  · exact h
  · exact absurd (by simp [isRemark, hl, href]) hr

theorem dropWhile_filter (passed : List Node) : (passed.filter test).dropWhile (isRemark referenced) =
    (passed.dropWhile (isRemark referenced)).filter test := by
  induction passed with
  | nil => rfl
  | cons n passed ih =>
    by_cases hr : isRemark referenced n = true
    · by_cases hn : test n = true
      · rw [filter_cons_of_pos hn, dropWhile_cons_of_pos hr, dropWhile_cons_of_pos hr, ih]
      · rw [filter_cons_of_neg hn, dropWhile_cons_of_pos hr, ih]
    · have hn := test_of_not_isRemark ht hr
      rw [filter_cons_of_pos hn, dropWhile_cons_of_neg hr, dropWhile_cons_of_neg hr, filter_cons_of_pos hn]

theorem takeWhile_filter (passed : List Node) : (passed.filter test).takeWhile (isRemark referenced) =
    (passed.takeWhile (isRemark referenced)).filter test := by
  -- what is taken is what comes before the part that is left
  apply @append_cancel_right _ _ ((passed.filter test).dropWhile (isRemark referenced))
  rw [takeWhile_append_dropWhile, dropWhile_filter ht, ← filter_append, takeWhile_append_dropWhile]

/-- The same operand is found once the labels are gone. -/
theorem find_filter (passed : List Node) :
    find referenced (passed.filter test) = (find referenced passed).map (filter · test) := by
  unfold find
  rw [dropWhile_filter ht, takeWhile_filter ht]
  cases hd : passed.dropWhile (isRemark referenced) with
  | nil => rfl
  | cons n =>
    have hr : ¬ isRemark referenced n = true := by
      have := head?_dropWhile_not (isRemark referenced) passed
      rw [hd] at this
      simpa using this
    rw [filter_cons_of_pos (test_of_not_isRemark ht hr)]
    dsimp only
    split
    · rfl
    · rfl
    · rfl

omit ht

theorem instr_filter (o : Operand) : (o.filter test).instr = o.instr := rfl

theorem before_filter (o : Operand) : (o.filter test).before = o.before.filter test := rfl

theorem between_filter (o : Operand) : (o.filter test).between = o.between.filter test := rfl

theorem dropped_filter (o : Operand) : (o.filter test).dropped = o.dropped.filter test := by
  rw [dropped, dropped, filter_append]
  rfl

include ht in
theorem replaced_filter (o : Operand) {i : Instr} (hi : i.label? = none) :
    (o.filter test).replaced i = (o.replaced i).filter test := by
  have hn : test { o.node with content := some i } = true := by
    rcases ht { o.node with content := some i } with h | ⟨l, hl, -⟩
    · exact h
    · cases hl
      cases hi
  rw [replaced, replaced, filter_append, filter_cons_of_pos hn]
  rfl

end Operand

namespace Literals

variable {referenced : Label → Bool} {test : Node → Bool} (ht : KeepsReferenced referenced test)

include ht

theorem pair?_filter (passed : List Node) : pair? referenced (passed.filter test) =
    (pair? referenced passed).map fun (right, r, left, l) => (right.filter test, r, left.filter test, l) := by
  simp only [pair?, find_filter ht, Option.bind_eq_bind, Option.bind_map, Option.map_bind, Function.comp_def,
    before_filter]
  rfl

theorem negation_filter (kind : NumKind) (passed : List Node) :
    negation referenced kind (passed.filter test) = (negation referenced kind passed).map (List.filter test) := by
  simp only [negation, find_filter ht, Option.bind_eq_bind]
  cases find referenced passed with
  | none => rfl
  | some o =>
    simp only [Option.map_some, Option.bind_some, instr_filter, dropped_filter]
    split
    · split <;> rfl
    · cases Value.ofLiteral? _ with
      | none => rfl
      | some v =>
        simp only [Option.bind_some]
        split
        · split
          · rw [replaced_filter ht o rfl]
            rfl
          · rfl
        · rfl
    · rfl

theorem arithmetic_filter (kind : NumKind) (op : MathOp) (passed : List Node) :
    arithmetic referenced kind op (passed.filter test) =
      (arithmetic referenced kind op passed).map (List.filter test) := by
  simp only [arithmetic, pair?_filter ht, Option.bind_eq_bind]
  cases pair? referenced passed with
  | none => rfl
  | some found =>
    obtain ⟨_, r, left, l⟩ := found
    simp only [Option.map_some, Option.bind_some, between_filter]
    cases Value.ofLiteral? l with
    | none => rfl
    | some l =>
      cases Value.ofLiteral? r with
      | none => rfl
      | some r =>
        simp only [Option.bind_some]
        split
        · split
          · rw [replaced_filter ht left rfl, ← filter_append]
            rfl
          · rfl
        · rfl

theorem foldRule_overlooks : (foldRule referenced).Overlooks test := by
  intro passed n
  unfold foldRule
  split
  · split
    · exact negation_filter ht _ passed
    · exact arithmetic_filter ht _ _ passed
  · rfl

theorem tested?_filter (cond : Condition) (passed : List Node) : tested? referenced cond (passed.filter test) =
    (tested? referenced cond passed).map fun (operands, dropped) => (operands, dropped.filter test) := by
  unfold tested?
  split
  · rw [pair?_filter ht]
    cases pair? referenced passed with
    | none => rfl
    | some =>
      simp [between_filter, dropped_filter]
  · rw [find_filter ht]
    cases find referenced passed with
    | none => rfl
    | some o =>
      simp only [Option.map_some, Option.bind_eq_bind, Option.bind_some, instr_filter, dropped_filter]
      cases o.instr.literal? <;> rfl

/-- A jump stays. -/
theorem filter_jump (n : Node) (target : Label) (dropped : List Node) :
    ({ n with content := some (.jump target) } :: dropped).filter test =
      { n with content := some (.jump target) } :: dropped.filter test := by
  refine filter_cons_of_pos ?_
  rcases ht { n with content := some (.jump target) } with h | ⟨l, hl, -⟩
  · exact h
  · cases hl

theorem branchRule_overlooks : (branchRule referenced).Overlooks test := by
  intro passed n
  unfold branchRule
  split
  · rename_i cond _ _
    rw [tested?_filter ht]
    cases tested? referenced cond passed with
    | none => rfl
    | some found =>
      obtain ⟨operands, _⟩ := found
      simp only [Option.map_some, Option.bind_eq_bind, Option.bind_some]
      cases Evaluation.condition cond operands with
      | none => rfl
      | some =>
        simp only [Option.bind_some]
        split
        · rw [Option.map_some, filter_jump ht]
        · rfl
  · rfl

theorem switchRule_overlooks : (switchRule referenced).Overlooks test := by
  intro passed n
  unfold switchRule
  split
  case h_3 => rfl
  all_goals
    rw [find_filter ht]
    cases find referenced passed with
    | none => rfl
    | some o =>
      simp only [Option.map_some, Option.bind_eq_bind, Option.bind_some, instr_filter, dropped_filter]
      split
      · cases selected? _ n.instr with
        | none => rfl
        | some => simp [filter_jump ht]
      · rfl

theorem popped_filter (width : Nat) (passed : List Node) :
    popped referenced width (passed.filter test) = (popped referenced width passed).map (List.filter test) := by
  simp only [popped, find_filter ht, Option.bind_eq_bind]
  cases find referenced passed with
  | none => rfl
  | some first =>
    simp only [Option.map_some, Option.bind_some, instr_filter, before_filter, between_filter,
      dropped_filter]
    cases first.instr.literal? with
    | none => rfl
    | some v =>
      simp only [Option.bind_some]
      split
      · rfl
      · split
        · rw [find_filter ht]
          cases find referenced first.before with
          | none => rfl
          | some second =>
            simp only [Option.map_some, Option.bind_some, instr_filter, dropped_filter]
            cases second.instr.literal? with
            | none => rfl
            | some w =>
              simp only [Option.bind_some]
              split
              · rw [← filter_append]
                rfl
              · rfl
        · rfl

theorem popRule_overlooks : (popRule referenced).Overlooks test := by
  intro passed n
  unfold popRule
  split
  · exact popped_filter ht 1 passed
  · exact popped_filter ht 2 passed
  · rfl

end Literals

/-! ### Bodies -/

namespace Body

theorem sweep_fst (b : Body) (rule : (Label → Bool) → Rule) :
    (b.sweep rule).1 = ((rule b.referencedSet.contains).sweep 0 [] b.nodes).1 := by
  unfold sweep
  dsimp only
  split
  · rename_i heq
    rw [heq]
  · rename_i heq
    rw [heq]

theorem sweep_eq_self (h : (b.sweep rule).1 = 0) : b.sweep rule = (0, b) := by
  unfold sweep at h ⊢
  dsimp only at h ⊢
  split at h
  · rfl
  · rename_i hne _
    exact absurd h hne

theorem keepsReferenced_uses (b : Body) : KeepsReferenced b.referencedSet.contains b.uses := by
  rintro ⟨_, content⟩
  cases content with
  | none => exact .inl rfl
  | some i =>
    cases i with
    | label l =>
      cases hl : b.referencedSet.contains l with
      | true => exact .inl hl
      | false => exact .inr ⟨l, rfl, hl⟩
    | _ => exact .inl rfl

/-- A rule that applies nowhere in a body does not apply once the labels that nothing refers to are gone. -/
theorem WellFormed.sweep_tidied (h : b.WellFormed)
    (hrule : ∀ {referenced test}, KeepsReferenced referenced test → (rule referenced).Overlooks test)
    (hnone : (b.sweep rule).1 = 0) : b.tidied.sweep rule = (0, b.tidied) := by
  refine sweep_eq_self ?_
  rw [sweep_fst] at hnone ⊢
  rw [referencedSet, h.orderly.referenced_tidied, h.orderly.nodes_tidied]
  exact (hrule b.keepsReferenced_uses).sweep hnone

end Body

end Untangle
