import Mathlib.Data.List.TakeWhile
import Untangle.Proofs.Simplification.Thinning
import Untangle.Simplification.Literals

/-!
# Sweeps keep bodies well-formed

A rule is mild if it only thins out what was passed together with the instruction it looks at. A
sweep with a mild rule thins out the whole run of nodes, so the body stays well-formed. The rules on
literals are mild: they take out pushes, negations, tests and pops, all of which fall through, and
put in pushes and jumps.
-/

namespace Untangle

open List Operand Instruction

variable {i : Instr} {n : Node} {v r l : Literal} {j : Instr} {t : Label} {right left : Operand} {cond : Condition}
  {operands : List Literal}

/-! ### Mild rules -/

/-- The rule only thins out what it is given. -/
def Rule.Mild (rule : Rule) : Prop :=
  ∀ passed n passed', rule passed n = some passed' → Thinned NoneNew (n :: passed).reverse passed'.reverse

/-- Going through nodes with a mild rule trims them. -/
theorem Rule.Mild.sweep {rule : Rule} (h : rule.Mild) (changes : Nat) (passed ns : List Node) :
    Trims (passed.reverse ++ ns) (rule.sweep changes passed ns).2 := by
  induction ns generalizing changes passed with
  | nil =>
    rw [append_nil]
    exact .refl _
  | cons n rest ih =>
    rw [Rule.sweep]
    cases hr : rule passed n with
    | none =>
      have hcons : passed.reverse ++ n :: rest = (n :: passed).reverse ++ rest := by simp
      rw [hcons]
      exact ih changes (n :: passed)
    | some passed' =>
      have hthin : Thinned NoneNew (passed.reverse ++ n :: rest) (passed'.reverse ++ rest) := by
        have := (h passed n passed' hr).append (Thinned.refl rest)
        simpa using this
      exact hthin.trims.trans (ih (changes + 1) passed')

/-- A sweep with a mild rule keeps a body well-formed. -/
theorem Body.WellFormed.sweep {b : Body} (h : b.WellFormed) {rule : (Label → Bool) → Rule}
    (hrule : ∀ referenced, (rule referenced).Mild) : (b.sweep rule).2.WellFormed := by
  have hs := (hrule b.referencedSet.contains).sweep 0 [] b.nodes
  unfold Body.sweep
  cases hsweep : (rule b.referencedSet.contains).sweep 0 [] b.nodes with
  | mk changes nodes =>
    rw [hsweep] at hs
    simp only [hsweep]
    cases changes with
    | zero => exact h
    | succ k => exact h.withNodes hs

/-! ### Operands -/

namespace Operand

variable {referenced : Label → Bool} {passed : List Node} {o : Operand}

section

variable (h : find referenced passed = some o)

include h

/-- What was passed is cut at the operand that was found. -/
theorem passed_eq : passed = o.between ++ o.node :: o.before := by
  unfold find at h
  split at h
  · cases h
  · next n before hd =>
    split at h
    · cases h
    · cases h
    · cases h
      rw [← hd, takeWhile_append_dropWhile]

theorem content_eq : o.node.content = some o.instr := by
  unfold find at h
  split at h
  · cases h
  · split at h
    · cases h
    · cases h
    · next hc => cases h; exact hc

theorem instr_eq : o.node.instr = o.instr :=
  Node.instr_of_content (content_eq h)

/-- Only lines, and labels that nothing refers to, stand between an operand and its use. -/
theorem isRemark_of_mem_between : ∀ n ∈ o.between, isRemark referenced n = true := by
  unfold find at h
  split at h
  · cases h
  · split at h
    · cases h
    · cases h
    · cases h
      intro n hn
      exact mem_takeWhile_imp hn

/-- An operand executes something. -/
theorem isReal_instr : o.instr.isReal = true := by
  unfold find at h
  split at h
  · cases h
  · next n before hd =>
    have hn : isRemark referenced n = false := by
      have := head?_dropWhile_not (isRemark referenced) passed
      rw [hd] at this
      simpa using this
    split at h
    · cases h
    · cases h
    · next i hlabel hc =>
      cases h
      cases i with
      | label l => exact absurd rfl (hlabel l)
      | line k => simp [isRemark, hc] at hn
      | _ => rfl

/-- Taking an operand that falls through out of what was passed. -/
theorem thinned_dropped (hf : o.instr.fallsThrough = true) : Thinned NoneNew passed.reverse o.dropped.reverse := by
  rw [passed_eq h, dropped, reverse_append, reverse_append, reverse_cons, append_assoc]
  have hdrop : Thinned NoneNew [o.node] [] :=
    .dropped (by rw [instr_eq h]; exact label?_of_isReal (isReal_instr h))
      (by rw [instr_eq h]; exact hf)
  exact (Thinned.refl _).append (hdrop.append (Thinned.refl _))

/-- Putting another instruction in the place of an operand. -/
theorem thinned_replaced (hi : i.StandsFor o.instr) : Thinned NoneNew passed.reverse (o.replaced i).reverse := by
  rw [passed_eq h, replaced, reverse_append, reverse_append, reverse_cons, reverse_cons]
  have hswap : Thinned NoneNew [o.node] [{ o.node with content := some i }] :=
    .swapped (by rw [Node.isReal, instr_eq h]; exact isReal_instr h) (by rw [instr_eq h]; exact hi)
  exact ((Thinned.refl _).append hswap).append (Thinned.refl _)

end

end Operand

/-- The instruction that a rule looks at goes, and something happens to what was passed. -/
theorem Thinned.reverse_cons_drop {passed passed' : List Node} (h : Thinned NoneNew passed.reverse passed'.reverse)
    (hl : n.instr.label? = none) (hf : n.instr.fallsThrough = true) :
    Thinned NoneNew (n :: passed).reverse passed'.reverse := by
  rw [reverse_cons, ← append_nil passed'.reverse]
  exact h.append (.dropped hl hf)

/-- The instruction that a rule looks at gives way to another, and something happens to what was
passed. -/
theorem Thinned.reverse_cons_swap (h : Thinned NoneNew passed.reverse passed'.reverse) (hr : n.isReal = true)
    (hi : i.StandsFor n.instr) :
    Thinned NoneNew (n :: passed).reverse ({ n with content := some i } :: passed').reverse := by
  rw [reverse_cons, reverse_cons]
  exact h.append (.swapped hr hi)

/-! ### Rules on literals -/

/-- A push can stand for anything that falls through. -/
theorem Instruction.StandsFor.push (h : j.fallsThrough = true) : (Instruction.push v : Instr).StandsFor j :=
  ⟨rfl, by simp [h], by simp [Instruction.targets], trivial, trivial⟩

/-- A jump can stand for anything that goes to the same place. -/
theorem Instruction.StandsFor.jump (h : t ∈ j.targets) : (Instruction.jump t : Instr).StandsFor j :=
  ⟨rfl, fun _ => rfl, by simpa [Instruction.targets] using h, trivial, trivial⟩

theorem Instruction.literal?_eq_some : i.literal? = some v ↔ i = .push v := by
  cases i <;> simp [literal?]

namespace Literals

variable {referenced : Label → Bool} {passed passed' : List Node}

/-- The two operands that were found, one behind the other. -/
theorem pair?_eq_some (h : pair? referenced passed = some (right, r, left, l)) :
    Operand.find referenced passed = some right ∧ right.instr = .push r ∧
      Operand.find referenced right.before = some left ∧ left.instr = .push l := by
  simp only [pair?, Option.bind_eq_bind, Option.bind_eq_some_iff] at h
  obtain ⟨_, hright, _, hr, _, hleft, _, hl, rfl, rfl, rfl, rfl⟩ := h
  exact ⟨hright, literal?_eq_some.mp hr, hleft, literal?_eq_some.mp hl⟩

/-- What the rule on arithmetic found: two negations, a negated literal, or an operation on two literals. -/
theorem foldRule_eq_some (h : foldRule referenced passed n = some passed') :
    ∃ kind op, n.content = some (.math kind op) ∧
      ((op = .neg ∧ ∃ o, Operand.find referenced passed = some o ∧
          (o.instr = .math kind .neg ∧ passed' = o.dropped ∨
            ∃ v u result, o.instr = .push v ∧ Value.ofLiteral? v = some u ∧ u.kind = kind ∧
              Evaluation.unary .neg u = .ok result ∧ passed' = o.replaced (.push result.literal))) ∨
        op.isUnary = false ∧ ∃ right r left l u v result, pair? referenced passed = some (right, r, left, l) ∧
          Value.ofLiteral? l = some u ∧ Value.ofLiteral? r = some v ∧ u.kind = kind ∧
          Evaluation.binary op u v = .ok result ∧ passed' = right.between ++ left.replaced (.push result.literal)) := by
  unfold foldRule at h
  split at h
  case h_2 => cases h
  next kind op hc =>
  refine ⟨kind, op, hc, ?_⟩
  split at h
  case isTrue hunary =>
    simp only [negation, Option.bind_eq_bind, Option.bind_eq_some_iff] at h
    obtain ⟨o, ho, h⟩ := h
    refine .inl ⟨by simpa [MathOp.isUnary] using hunary, o, ho, ?_⟩
    split at h
    · next k hi =>
      split at h <;> cases h
      next hk => exact .inl ⟨hk ▸ hi, rfl⟩
    · next v hi =>
      obtain ⟨u, hu, h⟩ := Option.bind_eq_some_iff.mp h
      split at h
      · next hk =>
        split at h <;> cases h
        next result hresult => exact .inr ⟨v, u, result, hi, hu, hk, hresult, rfl⟩
      · cases h
    · cases h
  case isFalse hunary =>
    simp only [arithmetic, Option.bind_eq_bind, Option.bind_eq_some_iff, Prod.exists] at h
    obtain ⟨right, r, left, l, hpair, u, hu, v, hv, h⟩ := h
    split at h
    · next hk =>
      split at h <;> cases h
      next result hresult =>
      exact .inr ⟨by simpa using hunary, right, r, left, l, u, v, result, hpair, hu, hv, hk, hresult, rfl⟩
    · cases h

/-- The literals that a test pops: two, or one. -/
theorem tested?_eq_some (h : tested? referenced cond passed = some (operands, passed')) :
    (∃ right r left l, pair? referenced passed = some (right, r, left, l) ∧ operands = [l, r] ∧
        passed' = right.between ++ left.dropped) ∨
      ∃ o v, Operand.find referenced passed = some o ∧ o.instr = .push v ∧ operands = [v] ∧ passed' = o.dropped := by
  unfold tested? at h
  split at h
  · simp only [Option.bind_eq_bind, Option.bind_eq_some_iff, Prod.exists] at h
    obtain ⟨right, r, left, l, hpair, rfl, rfl⟩ := h
    exact .inl ⟨right, r, left, l, hpair, rfl, rfl⟩
  · simp only [Option.bind_eq_bind, Option.bind_eq_some_iff] at h
    obtain ⟨o, ho, v, hv, rfl, rfl⟩ := h
    exact .inr ⟨o, v, ho, literal?_eq_some.mp hv, rfl, rfl⟩

/-- What the rule on conditional jumps found. -/
theorem branchRule_eq_some (h : branchRule referenced passed n = some passed') :
    ∃ cond target operands dropped taken, n.content = some (.branch cond target) ∧
      tested? referenced cond passed = some (operands, dropped) ∧ Evaluation.condition cond operands = some taken ∧
      passed' = if taken then { n with content := some (.jump target) } :: dropped else dropped := by
  unfold branchRule at h
  split at h
  case h_2 => cases h
  next cond target hc =>
  simp only [Option.bind_eq_bind, Option.bind_eq_some_iff, Prod.exists] at h
  obtain ⟨operands, dropped, ht, taken, hdecided, h⟩ := h
  refine ⟨cond, target, operands, dropped, taken, hc, ht, hdecided, ?_⟩
  split at h <;> cases h
  next htaken => rw [if_pos htaken]
  next htaken => rw [if_neg htaken]

/-- What is popped right away: one literal of this width, or two of one slot each. -/
theorem popped_eq_some {width : Nat} (h : popped referenced width passed = some passed') :
    (∃ o v, v.slots = width ∧ Operand.find referenced passed = some o ∧ o.instr = .push v ∧ passed' = o.dropped) ∨
      width = 2 ∧ ∃ right r left l, pair? referenced passed = some (right, r, left, l) ∧
        r.slots = 1 ∧ l.slots = 1 ∧ passed' = right.between ++ left.dropped := by
  simp only [popped, Option.bind_eq_bind, Option.bind_eq_some_iff] at h
  obtain ⟨first, hfirst, r, hr, h⟩ := h
  split at h
  · next hslots =>
    cases h
    exact .inl ⟨first, r, hslots, hfirst, literal?_eq_some.mp hr, rfl⟩
  split at h
  · next hwidth =>
    obtain ⟨second, hsecond, l, hl, h⟩ := by
      simpa only [Option.bind_eq_some_iff] using h
    split at h <;> cases h
    next hslots =>
    exact .inr ⟨hwidth.1, first, r, second, l, by simp [pair?, hfirst, hr, hsecond, hl], hwidth.2, hslots, rfl⟩
  · cases h

/-- What the rule on pops found. -/
theorem popRule_eq_some (h : popRule referenced passed n = some passed') :
    (∃ op o v, n.content = some (.stack op) ∧ (op = .pop ∧ v.slots = 1 ∨ op = .pop2 ∧ v.slots = 2) ∧
        Operand.find referenced passed = some o ∧ o.instr = .push v ∧ passed' = o.dropped) ∨
      n.content = some (.stack .pop2) ∧ ∃ right r left l, pair? referenced passed = some (right, r, left, l) ∧
        r.slots = 1 ∧ l.slots = 1 ∧ passed' = right.between ++ left.dropped := by
  unfold popRule at h
  split at h
  · next hc =>
    obtain ⟨o, v, hv, ho⟩ | ⟨hwidth, -⟩ := popped_eq_some h
    · exact .inl ⟨.pop, o, v, hc, .inl ⟨rfl, hv⟩, ho⟩
    · cases hwidth
  · next hc =>
    obtain ⟨o, v, hv, ho⟩ | ⟨-, hpair⟩ := popped_eq_some h
    · exact .inl ⟨.pop2, o, v, hc, .inr ⟨rfl, hv⟩, ho⟩
    · exact .inr ⟨hc, hpair⟩
  · cases h

/-- Taking a literal out of what was passed, if something happens to what was passed before it. -/
theorem thinned_operand {before : List Node} (ho : Operand.find referenced passed = some o) (hv : o.instr = .push v)
    (h : Thinned NoneNew o.before.reverse before.reverse) :
    Thinned NoneNew passed.reverse (o.between ++ before).reverse := by
  have hdrop : Thinned NoneNew [o.node] [] :=
    .dropped (by rw [instr_eq ho, hv]; rfl) (by rw [instr_eq ho, hv]; rfl)
  rw [passed_eq ho, reverse_append, reverse_append, reverse_cons, ← append_nil before.reverse]
  exact (h.append hdrop).append (.refl _)

/-- Taking two literals out of what was passed. -/
theorem thinned_pair (h : pair? referenced passed = some (right, r, left, l)) :
    Thinned NoneNew passed.reverse (right.between ++ left.dropped).reverse := by
  obtain ⟨hright, hr, hleft, hl⟩ := pair?_eq_some h
  exact thinned_operand hright hr (thinned_dropped hleft (by rw [hl]; rfl))

theorem foldRule_mild (referenced : Label → Bool) : (foldRule referenced).Mild := by
  intro _ n _ h
  obtain ⟨_, _, hc, hfound⟩ := foldRule_eq_some h
  have hn := Node.instr_of_content hc
  refine Thinned.reverse_cons_drop ?_ (by rw [hn]; rfl) (by rw [hn]; rfl)
  rcases hfound with ⟨-, o, ho, ⟨hi, rfl⟩ | ⟨v, u, result, hi, -, -, -, rfl⟩⟩ |
    ⟨-, right, r, left, l, u, v, result, hpair, -, -, -, -, rfl⟩
  · exact thinned_dropped ho (by rw [hi]; rfl)
  · exact thinned_replaced ho (.push (by rw [hi]; rfl))
  · obtain ⟨hright, hr, hleft, hl⟩ := pair?_eq_some hpair
    exact thinned_operand hright hr (thinned_replaced hleft (.push (by rw [hl]; rfl)))

theorem tested?_thinned (h : tested? referenced cond passed = some (operands, passed')) :
    Thinned NoneNew passed.reverse passed'.reverse := by
  obtain ⟨_, r, _, l, hpair, -, rfl⟩ | ⟨o, v, ho, hv, -, rfl⟩ := tested?_eq_some h
  · exact thinned_pair hpair
  · exact thinned_dropped ho (by rw [hv]; rfl)

theorem branchRule_mild (referenced : Label → Bool) : (branchRule referenced).Mild := by
  intro _ n _ h
  obtain ⟨_, _, _, _, _, hc, ht, -, rfl⟩ := branchRule_eq_some h
  have hn := Node.instr_of_content hc
  split
  · exact Thinned.reverse_cons_swap (tested?_thinned ht) (by rw [Node.isReal, hn]; rfl)
      (.jump (by rw [hn]; simp [targets]))
  · exact Thinned.reverse_cons_drop (tested?_thinned ht) (by rw [hn]; rfl) (by rw [hn]; rfl)

/-- A switch goes to one of its targets. -/
theorem mem_targets_of_selected? {selector : Int32} (h : selected? selector i = some t) : t ∈ i.targets := by
  unfold selected? at h
  split at h
  · next low high otherwise targets =>
    split at h
    · cases h
      simp [Instruction.targets]
    · cases h
      simp only [Instruction.targets, mem_append, mem_singleton, getD_eq_getElem?_getD]
      cases hg : targets[(selector.toInt - low.toInt).toNat]? with
      | none => exact .inr rfl
      | some t => exact .inl (mem_of_getElem? hg)
  · next otherwise pairs =>
    cases h
    simp only [targets, mem_append, mem_singleton, mem_map]
    cases hl : pairs.lookup selector with
    | none => exact .inr rfl
    | some t =>
      obtain ⟨_, _, rfl, -⟩ := lookup_eq_some_iff.mp hl
      exact .inl ⟨(selector, t), by simp, rfl⟩
  · cases h

/-- What the rule on switches found. -/
theorem switchRule_eq_some (h : switchRule referenced passed n = some passed') :
    ((∃ low high otherwise targets, n.content = some (.tableSwitch low high otherwise targets)) ∨
        ∃ otherwise pairs, n.content = some (.lookupSwitch otherwise pairs)) ∧
      ∃ o selector target, Operand.find referenced passed = some o ∧ o.instr = .push (.int selector) ∧
        selected? selector n.instr = some target ∧
        passed' = { n with content := some (.jump target) } :: o.dropped := by
  unfold switchRule at h
  split at h
  case h_3 => cases h
  all_goals
    next hc =>
    refine ⟨by simp [hc], ?_⟩
    obtain ⟨o, ho, h⟩ := Option.bind_eq_some_iff.mp h
    split at h
    · next selector hpush =>
      obtain ⟨target, ht, h⟩ := Option.bind_eq_some_iff.mp h
      cases h
      exact ⟨o, selector, target, ho, hpush, ht, rfl⟩
    · cases h

theorem switchRule_mild (referenced : Label → Bool) : (switchRule referenced).Mild := by
  intro _ n _ h
  obtain ⟨hswitch, o, _, _, ho, hpush, ht, rfl⟩ := switchRule_eq_some h
  have hreal : n.isReal = true := by
    obtain ⟨_, _, _, _, hc⟩ | ⟨_, _, hc⟩ := hswitch <;> rw [Node.isReal, Node.instr_of_content hc] <;> rfl
  exact Thinned.reverse_cons_swap (thinned_dropped ho (by rw [hpush]; rfl)) hreal
    (.jump (mem_targets_of_selected? ht))

theorem popRule_mild (referenced : Label → Bool) : (popRule referenced).Mild := by
  intro _ n _ h
  obtain ⟨_, o, v, hc, -, ho, hv, rfl⟩ | ⟨hc, _, r, _, l, hpair, -, -, rfl⟩ := popRule_eq_some h
  · have hn := Node.instr_of_content hc
    exact Thinned.reverse_cons_drop (thinned_dropped ho (by rw [hv]; rfl)) (by rw [hn]; rfl) (by rw [hn]; rfl)
  · have hn := Node.instr_of_content hc
    exact Thinned.reverse_cons_drop (thinned_pair hpair) (by rw [hn]; rfl) (by rw [hn]; rfl)

end Literals

end Untangle
