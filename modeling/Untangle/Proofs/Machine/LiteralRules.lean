import Untangle.Proofs.Code.Disassembly
import Untangle.Proofs.Machine.Rewriting

/-!
# Computing with literals cannot be seen

The four rules on literals exchange a few nodes for others that do the same: pushes, and an operation
of the machine that takes what they pushed, give way to a push of the result, to a jump or to nothing.
Lines and labels that nothing refers to may stand in between and stay where they are.

So none of the four sweeps changes what is seen of any run of a well-formed body, whatever the world
makes of the other instructions. They are performed in the same order, each with the same stack, locals,
heap and exception ranges, and the run returns, throws or goes on forever as before.
-/

namespace Untangle.Machine

open Operand

open List hiding beq_eq_decide

variable {L H : Type} {o : Operand} {v l r : Literal} {t : Label} {kind : NumKind} {op : MathOp} {b : Bool} {x : Item}
  {selector : Int32} {i : Instr} {u result : Value}

/-! ### Blocks with remarks -/

/-- An instruction that the machine executes itself. -/
def IsOwn (n : Node) : Prop := n.isReal = true ∧ isObserved n.instr = false

/-- The block consists of these instructions of the machine, in their order, with remarks in between. -/
inductive Spaced (known : Label → Bool) : List Node → List Node → Prop where
  | nil : Spaced known [] []
  | own {own block : List Node} {n : Node} : IsOwn n → Spaced known own block →
      Spaced known (n :: own) (n :: block)
  | remark {own block : List Node} {n : Node} : Operand.isRemark known n = true → Spaced known own block →
      Spaced known own (n :: block)

theorem remark_cases (h : Operand.isRemark known n = true) :
    (∃ k, n.instr = .line k) ∨ ∃ l, n.instr = .label l ∧ known l = false := by
  unfold isRemark at h
  split at h
  · next k hc => exact .inl ⟨k, Node.instr_of_content hc⟩
  · next l hc => exact .inr ⟨l, Node.instr_of_content hc, by simpa using h⟩
  · cases h

namespace Spaced

variable {known : Label → Bool} {own own' block block' : List Node}

theorem append (h : Spaced known own block) (h' : Spaced known own' block') :
    Spaced known (own ++ own') (block ++ block') := by
  induction h with
  | nil => exact h'
  | own hn _ ih => exact .own hn ih
  | remark hn _ ih => exact .remark hn ih

theorem of_remarks (h : ∀ n ∈ ns, Operand.isRemark known n = true) : Spaced known [] ns := by
  induction ns with
  | nil => exact .nil
  | cons n ns ih =>
    rw [forall_mem_cons] at h
    exact .remark h.1 (ih h.2)

theorem hidden (h : Spaced known own block) : ∀ l ∈ labelsOf block, known l = false := by
  induction h with
  | nil => exact fun l hl => absurd hl not_mem_nil
  | own hn _ ih =>
    rw [labelsOf_cons, Instruction.label?_of_isReal hn.1]
    exact ih
  | remark hn _ ih =>
    rcases remark_cases hn with ⟨k, hi⟩ | ⟨l, hi, hl⟩
    · rw [labelsOf_cons, hi]
      exact ih
    · rw [labelsOf_cons, hi]
      exact forall_mem_cons.mpr ⟨hl, ih⟩

theorem quiet (h : Spaced known own block) : ∀ n ∈ block, isObserved n.instr = false := by
  induction h with
  | nil => exact fun n hn => absurd hn not_mem_nil
  | own hn _ ih => exact forall_mem_cons.mpr ⟨hn.2, ih⟩
  | remark hn _ ih =>
    refine forall_mem_cons.mpr ⟨?_, ih⟩
    rcases remark_cases hn with ⟨k, hi⟩ | ⟨l, hi, -⟩
    · rw [hi]; rfl
    · rw [hi]; rfl

/-- Remarks do nothing. -/
theorem through (h : Spaced known own block) (w : World L H) (f : Frame L H) : w.through block f = w.through own f := by
  induction h generalizing f with
  | nil => rfl
  | @own own block n _ _ ih =>
    rw [World.through, World.through]
    cases w.move n f with
    | on f' => exact ih f'
    | _ => rfl
  | @remark own block n hn _ ih =>
    have hmove : w.move n f = .on f := by
      rcases remark_cases hn with ⟨k, hi⟩ | ⟨l, hi, -⟩
      · rw [World.move, hi]
      · rw [World.move, hi]
    rw [World.through, hmove]
    exact ih f

end Spaced

/-! ### Exchanging the last instructions passed -/

/-- The nodes passed, nearest first, are the same in both lists but for their last instructions, which are
`own` in the first list and `own'` in the second, with remarks among and behind them. -/
def Exchanges (known : Label → Bool) (passed passed' own own' : List Node) : Prop :=
  ∃ before block block', passed.reverse = before ++ block ∧ passed'.reverse = before ++ block' ∧
    Spaced known own block ∧ Spaced known own' block'

namespace Exchanges

variable {known : Label → Bool} {passed passed' own own' : List Node} {n : Node}

theorem refl (passed : List Node) : Exchanges known passed passed [] [] :=
  ⟨passed.reverse, [], [], by simp, by simp, .nil, .nil⟩

section

variable (h : Exchanges known passed passed' own own')

include h

/-- One more instruction in the first list. -/
theorem use (hn : IsOwn n) : Exchanges known (n :: passed) passed' (own ++ [n]) own' := by
  obtain ⟨before, block, block', hp, hp', hs, hs'⟩ := h
  refine ⟨before, block ++ [n], block', ?_, hp', hs.append (.own hn .nil), hs'⟩
  rw [reverse_cons, hp, append_assoc]

/-- One more instruction in the second list. -/
theorem put (hn : IsOwn n) : Exchanges known passed (n :: passed') own (own' ++ [n]) := by
  obtain ⟨before, block, block', hp, hp', hs, hs'⟩ := h
  refine ⟨before, block, block' ++ [n], hp, ?_, hs, hs'.append (.own hn .nil)⟩
  rw [reverse_cons, hp', append_assoc]

/-- The same remarks in both lists. -/
theorem remarks {between : List Node} (hb : ∀ n ∈ between, Operand.isRemark known n = true) :
    Exchanges known (between ++ passed) (between ++ passed') own own' := by
  obtain ⟨before, block, block', hp, hp', hs, hs'⟩ := h
  have hbetween : Spaced known [] between.reverse := .of_remarks fun n hn => hb n (mem_reverse.mp hn)
  refine ⟨before, block ++ between.reverse, block' ++ between.reverse, ?_, ?_, ?_, ?_⟩
  · rw [reverse_append, hp, append_assoc]
  · rw [reverse_append, hp', append_assoc]
  · exact append_nil own ▸ hs.append hbetween
  · exact append_nil own' ▸ hs'.append hbetween

end

/-- An operand that was found is one more instruction in the first list. -/
theorem operand (ho : Operand.find known passed = some o) (hown : isObserved o.instr = false)
    (h : Exchanges known o.before passed' own own') :
    Exchanges known passed (o.between ++ passed') (own ++ [o.node]) own' := by
  have hn : IsOwn o.node := by
    rw [IsOwn, Node.isReal, instr_eq ho]
    exact ⟨isReal_instr ho, hown⟩
  have hpassed := (h.use hn).remarks (isRemark_of_mem_between ho)
  rwa [← passed_eq ho] at hpassed

end Exchanges

namespace World

variable {w : World L H} {known : Label → Bool} {cond : Condition} {taken : Bool} {passed : List Node}

/-- The machine does the same in both runs of instructions, unless it goes wrong in the first. -/
def Agree (w : World L H) (own own' : List Node) : Prop :=
  ∀ f, w.through own f = .stops .wrong ∨
    w.through own' f = w.through own f ∧ ∀ e f', w.through own f ≠ .throws e f'

/-- A rule cannot be seen if it only ever exchanges instructions for others that do the same. -/
theorem keptBy_of_exchanges {rule : Rule} (hmild : rule.Mild)
    (h : ∀ passed n passed', rule passed n = some passed' → ∃ own own',
      Exchanges known (n :: passed) passed' own own' ∧ w.Agree own own') : w.KeptBy known rule := by
  intro passed n passed' hrule
  obtain ⟨own, own', ⟨before, block, block', hp, hp', hs, hs'⟩, hagree⟩ := h passed n passed' hrule
  refine ⟨before, block, block', hp, hp', ?_, hs.hidden, hs.quiet, hs'.quiet, fun f => ?_⟩
  · have hlabels := (hmild passed n passed' hrule).labels
    rw [hp, hp', labelsOf_append, labelsOf_append] at hlabels
    exact append_cancel_left hlabels
  · rw [hs.through w, hs'.through w]
    exact hagree f

/-! ### Single moves -/

section Moves

variable (w) {n : Node} {ns : List Node} (f : Frame L H) {s : List Item}

theorem through_push (hn : n.instr = .push v) :
    w.through (n :: ns) f = w.through ns { f with stack := w.value v :: f.stack } := by
  rw [through, move, hn]

theorem through_jump (hn : n.instr = .jump t) : w.through (n :: ns) f = .goes (.label t) f := by
  rw [through, move, hn]

theorem through_math (hn : n.instr = .math kind op) (h : math kind op f.stack = .ok s) :
    w.through (n :: ns) f = w.through ns { f with stack := s } := by
  rw [through, move, hn]
  simp [h]

theorem through_math_wrong (hn : n.instr = .math kind op) (h : math kind op f.stack = .error .wrong) :
    w.through (n :: ns) f = .stops .wrong := by
  rw [through, move, hn]
  simp [h]

theorem through_branch (hn : n.instr = .branch cond t) (h : test cond f.stack = some (taken, s)) :
    w.through (n :: ns) f =
      if taken then .goes (.label t) { f with stack := s } else w.through ns { f with stack := s } := by
  rw [through, move, hn]
  cases taken <;> simp [h]

theorem through_pop (hn : n.instr = .stack .pop) (h : pop f.stack = some s) :
    w.through (n :: ns) f = w.through ns { f with stack := s } := by
  rw [through, move, hn]
  simp [h]

theorem through_pop2 (hn : n.instr = .stack .pop2) (h : pop2 f.stack = some s) :
    w.through (n :: ns) f = w.through ns { f with stack := s } := by
  rw [through, move, hn]
  simp [h]

end Moves

/-- Runs of instructions that both come to the same move, which is no exception, agree. -/
theorem agree_of_eq (h : ∀ f, ∃ m : Move L H, w.through own f = m ∧ w.through own' f = m ∧
    ∀ e f', m ≠ .throws e f') : w.Agree own own' := by
  intro f
  obtain ⟨m, hm, hm', hthrows⟩ := h f
  exact .inr ⟨hm'.trans hm.symm, hm ▸ hthrows⟩

/-! ### Values -/

@[simp] theorem value_literal (v : Value) : w.value v.literal = .number v := by
  cases v <;> rfl

theorem value_of_ofLiteral? {v : Value} (h : Value.ofLiteral? l = some v) : w.value l = .number v := by
  cases l <;> cases h <;> rfl

theorem negate_eq_error {v : Value} {e : Fault} (h : negate kind v = .error e) : e = .wrong := by
  cases kind <;> cases v <;> cases h <;> rfl

/-! ### Tests -/

theorem compares_of_compareInts {l r : Int32} (h : Evaluation.compareInts cond l r = some taken) :
    compares cond l.toInt r.toInt = some taken := by
  cases cond <;> cases h <;>
    simp [compares, Int32.lt_iff_toInt_lt, Int32.le_iff_toInt_le, Int32.toInt_inj, bne, beq_eq_decide]

theorem test_int {v : Int32} (hc : cond.operandCount = 1) (h : Evaluation.compareInts cond v 0 = some taken)
    (s : List Item) : test cond (.number (.int v) :: s) = some (taken, s) := by
  have hcompares := compares_of_compareInts h
  cases cond with
  | eq | ne | lt | ge | gt | le => exact congrArg (Option.map fun c => (c, s)) hcompares
  | isNull | nonNull => cases h
  | _ => cases hc

theorem test_ints {l r : Int32} (hc : cond.operandCount = 2) (h : Evaluation.compareInts cond l r = some taken)
    (s : List Item) : test cond (.number (.int r) :: .number (.int l) :: s) = some (taken, s) := by
  have hcompares := compares_of_compareInts h
  cases cond with
  | intEq | intNe | intLt | intGe | intGt | intLe => exact congrArg (Option.map fun c => (c, s)) hcompares
  | refEq | refNe => cases h
  | _ => cases hc

theorem isNull?_value (h : Evaluation.nullness v = some b) : (w.value v).isNull? = some b := by
  cases v <;> cases h <;> rfl

theorem isNull?_eq_true : x.isNull? = some true ↔ x = .null := by
  cases x <;> simp [Item.isNull?]

/-- Two references, one of which is `null`, are the same if both are. -/
theorem eq_iff_of_isNull? {y : Item} {a : Bool} (hx : x.isNull? = some a) (hy : y.isNull? = some b)
    (h : (a || b) = true) : decide (x = y) = (a && b) := by
  cases a <;> cases b <;> grind [isNull?_eq_true]

/-- A test of one literal that was decided ahead of time. -/
theorem test_of_condition (h : Evaluation.condition cond [v] = some taken) (s : List Item) :
    test cond (w.value v :: s) = some (taken, s) := by
  unfold Evaluation.condition at h
  split at h
  case h_1 he | h_2 he | h_3 he | h_4 he | h_5 he | h_6 he =>
    cases he
    exact test_int rfl h s
  case h_13 he =>
    cases he
    rw [test, isNull?_value h]
    rfl
  case h_14 he =>
    cases he
    obtain ⟨b, hb, rfl⟩ := Option.map_eq_some_iff.mp h
    rw [test, isNull?_value hb]
    rfl
  case h_17 => cases h
  all_goals next he => cases he

/-- A test of two literals that was decided ahead of time, the left one pushed first. -/
theorem test_of_condition₂ (h : Evaluation.condition cond [l, r] = some taken) (s : List Item) :
    test cond (w.value r :: w.value l :: s) = some (taken, s) := by
  unfold Evaluation.condition at h
  split at h
  case h_7 he | h_8 he | h_9 he | h_10 he | h_11 he | h_12 he =>
    cases he
    exact test_ints rfl h s
  case h_15 he =>
    cases he
    split at h
    · next a b ha hb =>
      split at h
      · next hor =>
        cases h
        have htest : test .refEq (w.value r :: w.value l :: s) = some (decide (w.value l = w.value r), s) := by
          simp [test, isNull?_value ha, isNull?_value hb]
        rw [htest, eq_iff_of_isNull? (isNull?_value ha) (isNull?_value hb) hor]
        cases a <;> cases b <;> rfl
      · cases h
    · cases h
  case h_16 he =>
    cases he
    split at h
    · next a b ha hb =>
      split at h
      · next hor =>
        cases h
        have htest : test .refNe (w.value r :: w.value l :: s) = some (!decide (w.value l = w.value r), s) := by
          simp [test, isNull?_value ha, isNull?_value hb]
        rw [htest, eq_iff_of_isNull? (isNull?_value ha) (isNull?_value hb) hor]
        cases a <;> cases b <;> rfl
      · cases h
    · cases h
  case h_17 => cases h
  all_goals next he => cases he

/-! ### Switches -/

/-- Where a switch was found to go ahead of time is where it goes, if its table is long enough. -/
theorem chosen?_of_selected? (h : Literals.selected? selector i = some t) :
    chosen? selector i = none ∨ chosen? selector i = some t := by
  cases i with
  | tableSwitch low high otherwise targets =>
    have hout : (selector < low ∨ selector > high) ↔
        ¬ (low.toInt ≤ selector.toInt ∧ selector.toInt ≤ high.toInt) := by
      rw [gt_iff_lt, Int32.lt_iff_toInt_lt, Int32.lt_iff_toInt_lt]
      omega
    simp only [Literals.selected?, hout, ite_not] at h
    simp only [chosen?]
    split at h
    · next hin =>
      rw [if_pos hin]
      cases hg : targets[(selector.toInt - low.toInt).toNat]? with
      | none => exact .inl rfl
      | some target =>
        simp only [getD_eq_getElem?_getD, hg] at h
        exact .inr h
    · next hin =>
      rw [if_neg hin]
      exact .inr h
  | lookupSwitch otherwise pairs =>
    right
    cases h
    simp only [chosen?]
    induction pairs with
    | nil => rfl
    | cons p _ ih =>
      obtain ⟨key, target⟩ := p
      by_cases hkey : key = selector
      · simp [hkey]
      · have hkey' : (selector == key) = false := by simpa using Ne.symm hkey
        simpa [lookup_cons, hkey, hkey'] using ih
  | _ => cases h

/-! ### Instructions that do the same -/

section Agreement

variable (w) {a b c d : Node}

/-- Two negations do nothing. -/
theorem agree_negations (ha : a.instr = .math kind .neg) (hb : b.instr = .math kind .neg) : w.Agree [a, b] [] := by
  intro f
  have hwrong (h : math kind .neg f.stack = .error .wrong) : w.through [a, b] f = .stops .wrong :=
    through_math_wrong w f ha h
  match hs : f.stack with
  | .number v :: s =>
    cases hv : negate kind v with
    | error e =>
      refine .inl (hwrong ?_)
      rw [negate_eq_error hv] at hv
      simp only [hs, math, hv]
      rfl
    | ok u =>
      have hfirst : math kind .neg f.stack = .ok (.number u :: s) := by
        simp only [hs, math, hv]
        rfl
      have hsecond : math kind .neg (.number u :: s) = .ok f.stack := by
        simp only [hs, math, negate_negate hv]
        rfl
      rw [through_math w f ha hfirst, through_math w _ hb hsecond]
      exact .inr ⟨rfl, by simp [through]⟩
  | [] | .null :: _ | .object _ :: _ | .address _ :: _ => exact .inl (hwrong (by rw [hs]; rfl))

/-- A literal that is turned around. -/
theorem agree_negation (hv : Value.ofLiteral? v = some u) (hresult : Evaluation.unary .neg u = .ok result)
    (ha : a.instr = .push v) (hb : b.instr = .math u.kind .neg) (hc : c.instr = .push result.literal) :
    w.Agree [a, b] [c] := by
  refine agree_of_eq fun f => ⟨.on { f with stack := .number result :: f.stack }, ?_, ?_, by simp⟩
  · rw [through_push w f ha, value_of_ofLiteral? hv, through_math w _ hb]
    · rfl
    · simp only [math, negate_of_evaluation hresult]
      rfl
  · rw [through_push w f hc, value_literal]
    rfl

/-- An operation on two literals. -/
theorem agree_operation {v : Value} (hop : op.isUnary = false) (hl : Value.ofLiteral? l = some u)
    (hr : Value.ofLiteral? r = some v) (hresult : Evaluation.binary op u v = .ok result) (ha : a.instr = .push l)
    (hb : b.instr = .push r) (hc : c.instr = .math u.kind op) (hd : d.instr = .push result.literal) :
    w.Agree [a, b, c] [d] := by
  refine agree_of_eq fun f => ⟨.on { f with stack := .number result :: f.stack }, ?_, ?_, by simp⟩
  · rw [through_push w f ha, through_push w _ hb, value_of_ofLiteral? hl, value_of_ofLiteral? hr, through_math w _ hc]
    · rfl
    · simp only [math, hop, binary_of_evaluation hresult]
      rfl
  · rw [through_push w f hd, value_literal]
    rfl

/-- A branch on literals, which are in `pushes`, does what was decided. -/
theorem agree_branch {pushes : List Node}
    (hpushes : ∀ f ns, ∃ s, w.through (pushes ++ ns) f = w.through ns { f with stack := s } ∧
      test cond s = some (taken, f.stack))
    (hb : b.instr = .branch cond t) (hc : c.instr = .jump t) :
    w.Agree (pushes ++ [b]) (if taken then [c] else []) := by
  refine agree_of_eq fun f => ⟨if taken then .goes (.label t) f else .on f, ?_, ?_, ?_⟩
  · obtain ⟨s, hs, htest⟩ := hpushes f [b]
    rw [hs, through_branch w _ hb htest]
    rfl
  · cases taken with
    | true => exact through_jump w f hc
    | false => rfl
  · cases taken <;> simp

/-- A switch on a literal. -/
theorem agree_switch (ha : a.instr = .push (.int selector)) (hb : ∀ f : Frame L H, w.move b f = switch b.instr f)
    (ht : Literals.selected? selector b.instr = some t) (hc : c.instr = .jump t) : w.Agree [a, b] [c] := by
  intro f
  have hvalue : w.value (.int selector) = .number (.int selector) := rfl
  rw [through_push w f ha, through, hb, through_jump w f hc, hvalue]
  rcases chosen?_of_selected? ht with hnone | hsome
  · exact .inl (by simp [switch, hnone])
  · exact .inr (by simp [switch, hsome])

/-- A literal that is popped. -/
theorem agree_pop (hv : v.slots = 1) (ha : a.instr = .push v) (hb : b.instr = .stack .pop) : w.Agree [a, b] [] := by
  refine agree_of_eq fun f => ⟨.on f, ?_, rfl, by simp⟩
  rw [through_push w f ha, through_pop w _ hb]
  · rfl
  · simp [pop, slots_value, hv]

/-- A literal of two slots that is popped. -/
theorem agree_pop2 (hv : v.slots = 2) (ha : a.instr = .push v) (hb : b.instr = .stack .pop2) : w.Agree [a, b] [] := by
  refine agree_of_eq fun f => ⟨.on f, ?_, rfl, by simp⟩
  rw [through_push w f ha, through_pop2 w _ hb]
  · rfl
  · simp [pop2, slots_value, hv]

/-- Two literals that are popped together. -/
theorem agree_pops {u : Literal} (hu : u.slots = 1) (hv : v.slots = 1) (ha : a.instr = .push u)
    (hb : b.instr = .push v) (hc : c.instr = .stack .pop2) : w.Agree [a, b, c] [] := by
  refine agree_of_eq fun f => ⟨.on f, ?_, rfl, by simp⟩
  rw [through_push w f ha, through_push w _ hb, through_pop2 w _ hc]
  · rfl
  · simp [pop2, pop, slots_value, hu, hv]

end Agreement

/-! ### The four rules -/

open Literals

theorem isObserved_push (h : o.instr = .push v) : isObserved o.instr = false := by
  rw [h]
  rfl

theorem isOwn_of_content (h : n.content = some i) (hr : i.isReal = true) (hi : isObserved i = false) : IsOwn n := by
  rw [IsOwn, Node.isReal, Node.instr_of_content h]
  exact ⟨hr, hi⟩

/-- Taking out two literals. -/
theorem exchanges_pair {right left : Operand} (h : pair? known passed = some (right, r, left, l)) :
    Exchanges known passed (right.between ++ left.dropped) [left.node, right.node] [] := by
  obtain ⟨hright, hr, hleft, hl⟩ := pair?_eq_some h
  exact .operand hright (isObserved_push hr) (.operand hleft (isObserved_push hl) (.refl _))

theorem foldRule_keptBy (w : World L H) (known : Label → Bool) : w.KeptBy known (foldRule known) := by
  refine keptBy_of_exchanges (foldRule_mild known) fun passed n passed' h => ?_
  have hput : ∀ {m : Node} {v : Literal}, IsOwn { m with content := some (.push v) } := isOwn_of_content rfl rfl rfl
  obtain ⟨_, _, hc, hfound⟩ := foldRule_eq_some h
  have hn := Node.instr_of_content hc
  have hown : IsOwn n := isOwn_of_content hc rfl rfl
  rcases hfound with ⟨rfl, o, ho, hfound⟩ | ⟨hop, _, r, left, l, u, v, result, hpair, hu, hv, rfl, hresult, rfl⟩
  · have ho' := instr_eq ho
    rcases hfound with ⟨hi, rfl⟩ | ⟨v, u, result, hi, hu, rfl, hresult, rfl⟩
    · exact ⟨_, _, (Exchanges.operand ho (by rw [hi]; rfl) (.refl _)).use hown, agree_negations w (ho'.trans hi) hn⟩
    · exact ⟨_, _, (Exchanges.operand ho (isObserved_push hi) ((Exchanges.refl o.before).put hput)).use hown,
        agree_negation w hu hresult (ho'.trans hi) hn rfl⟩
  · obtain ⟨hright, hr, hleft, hl⟩ := pair?_eq_some hpair
    exact ⟨_, _, (Exchanges.operand hright (isObserved_push hr)
        (.operand hleft (isObserved_push hl) ((Exchanges.refl left.before).put hput))).use hown,
      agree_operation w hop hu hv hresult ((instr_eq hleft).trans hl) ((instr_eq hright).trans hr)
        hn rfl⟩

/-- The literals that a test pops, found ahead of time. -/
theorem exchanges_tested {dropped : List Node} {operands : List Literal}
    (h : tested? known cond passed = some (operands, dropped))
    (hdecided : Evaluation.condition cond operands = some taken) :
    ∃ pushes, Exchanges known passed dropped pushes [] ∧
      ∀ (f : Frame L H) ns, ∃ s, w.through (pushes ++ ns) f = w.through ns { f with stack := s } ∧
        test cond s = some (taken, f.stack) := by
  obtain ⟨_, r, _, l, hpair, rfl, rfl⟩ | ⟨o, v, ho, hv, rfl, rfl⟩ := tested?_eq_some h
  · obtain ⟨hright, hr, hleft, hl⟩ := pair?_eq_some hpair
    refine ⟨_, exchanges_pair hpair, fun f ns => ⟨w.value r :: w.value l :: f.stack, ?_, ?_⟩⟩
    · exact (through_push w f ((instr_eq hleft).trans hl)).trans
        (through_push w _ ((instr_eq hright).trans hr))
    · exact test_of_condition₂ hdecided f.stack
  · refine ⟨_, .operand ho (isObserved_push hv) (.refl _), fun f ns => ⟨w.value v :: f.stack, ?_, ?_⟩⟩
    · exact through_push w f ((instr_eq ho).trans hv)
    · exact test_of_condition hdecided f.stack

theorem branchRule_keptBy (w : World L H) (known : Label → Bool) : w.KeptBy known (branchRule known) := by
  refine keptBy_of_exchanges (branchRule_mild known) fun passed n passed' h => ?_
  obtain ⟨_, target, _, _, taken, hc, ht, hdecided, rfl⟩ := branchRule_eq_some h
  have hn := Node.instr_of_content hc
  have hown : IsOwn n := isOwn_of_content hc rfl rfl
  obtain ⟨_, hex, hpushes⟩ := exchanges_tested ht hdecided
  have hagree := agree_branch w (c := { n with content := some (.jump target) }) hpushes hn rfl
  cases taken with
  | true => exact ⟨_, _, (hex.use hown).put (isOwn_of_content rfl rfl rfl), hagree⟩
  | false => exact ⟨_, _, hex.use hown, hagree⟩

theorem switchRule_keptBy (w : World L H) (known : Label → Bool) : w.KeptBy known (switchRule known) := by
  refine keptBy_of_exchanges (switchRule_mild known) fun passed n passed' h => ?_
  obtain ⟨hswitch, o, _, _, ho, hpush, ht, rfl⟩ := switchRule_eq_some h
  obtain ⟨i, hc, hr, hi, hmove⟩ : ∃ i, n.content = some i ∧ i.isReal = true ∧ isObserved i = false ∧
      ∀ f : Frame L H, w.move n f = switch n.instr f := by
    obtain ⟨_, _, _, _, hc⟩ | ⟨_, _, hc⟩ := hswitch <;>
      exact ⟨_, hc, rfl, rfl, fun f => by rw [move, Node.instr_of_content hc]⟩
  have htaken : Exchanges known passed o.dropped [o.node] [] :=
    .operand ho (isObserved_push hpush) (.refl _)
  exact ⟨_, _, (htaken.use (isOwn_of_content hc hr hi)).put (isOwn_of_content rfl rfl rfl),
    agree_switch w ((instr_eq ho).trans hpush) hmove ht rfl⟩

theorem popRule_keptBy (w : World L H) (known : Label → Bool) : w.KeptBy known (popRule known) := by
  refine keptBy_of_exchanges (popRule_mild known) fun passed n passed' h => ?_
  obtain ⟨_, o, v, hc, hwidth, ho, hv, rfl⟩ | ⟨hc, _, r, _, l, hpair, hr, hl, rfl⟩ := popRule_eq_some h
  · have hn := Node.instr_of_content hc
    have hex : Exchanges known passed o.dropped [o.node] [] := .operand ho (isObserved_push hv) (.refl _)
    have ho' := (instr_eq ho).trans hv
    rcases hwidth with ⟨rfl, hslots⟩ | ⟨rfl, hslots⟩
    · exact ⟨_, _, hex.use (isOwn_of_content hc rfl rfl), agree_pop w hslots ho' hn⟩
    · exact ⟨_, _, hex.use (isOwn_of_content hc rfl rfl), agree_pop2 w hslots ho' hn⟩
  · obtain ⟨hright, hr', hleft, hl'⟩ := pair?_eq_some hpair
    exact ⟨_, _, (exchanges_pair hpair).use (isOwn_of_content hc rfl rfl),
      agree_pops w hl hr ((instr_eq hleft).trans hl') ((instr_eq hright).trans hr')
        (Node.instr_of_content hc)⟩

end World

/-- Computing with literals ahead of time cannot be seen. Whatever the world makes of the other
instructions, a run of a well-formed body from any state performs the same of them, each with the same
stack, locals, heap and exception ranges, after its arithmetic was done, its branches or its switches
were decided or its pops removed, and stands the same way after any number of transfers of control: so it
returns, throws or goes on forever as before. Only where an operand was missing or of the wrong kind the
new body need not stop. -/
theorem runBody_literals (w : World L H) (b : Body) (hb : b.WellFormed) (transfers : Nat) (f : Frame L H) :
    (w.runBody b transfers f).RefinedBy (w.runBody b.foldConstants.2 transfers f) ∧
    (w.runBody b transfers f).RefinedBy (w.runBody b.decideBranches.2 transfers f) ∧
    (w.runBody b transfers f).RefinedBy (w.runBody b.decideSwitches.2 transfers f) ∧
    (w.runBody b transfers f).RefinedBy (w.runBody b.removePops.2 transfers f) :=
  ⟨w.runBody_sweep hb Literals.foldRule_mild w.foldRule_keptBy transfers f,
    w.runBody_sweep hb Literals.branchRule_mild w.branchRule_keptBy transfers f,
    w.runBody_sweep hb Literals.switchRule_mild w.switchRule_keptBy transfers f,
    w.runBody_sweep hb Literals.popRule_mild w.popRule_keptBy transfers f⟩

/-- A world in which nothing happens but leaving. -/
def idleWorld : World Unit Unit where
  text _ := 0
  type _ := 0
  methodType _ := 0
  pooled _ wide := if wide then .number (.long 0) else .null
  pooled_slots := by
    intro _ wide
    cases wide <;> rfl
  act n f :=
    match n.instr with
    | .leave _ => .leaves f
    | _ => .next f
  divisionByZero h := (0, h)
  catches _ _ _ := false

/-- Jumps over an instruction if two literals make nine, which they do. -/
def decidedBody : Body where
  maxStack := 2
  maxLocals := 1
  code := Listing.ofInstrs
    [.push (.int 10), .line 7, .push (.int 3), .math .int .xor, .push (.int 9), .branch .intEq 0,
     .increment 0 1, .label 0, .leave none]

/-- A body whose branch is decided by literals runs to its end as before. -/
theorem decidedBody_literals : decidedBody.WellFormed ∧ decidedBody.foldConstants.1 = 1 ∧
    idleWorld.runBody decidedBody 2 ⟨[], (), ()⟩ =
      ⟨[⟨⟨8, some (.leave none)⟩, ⟨[], (), ()⟩, []⟩], .returned ⟨[], (), ()⟩⟩ ∧
    (idleWorld.runBody decidedBody 2 ⟨[], (), ()⟩).RefinedBy
      (idleWorld.runBody decidedBody.foldConstants.2 2 ⟨[], (), ()⟩) := by
  have hwf : decidedBody.WellFormed := Body.wellFormed_ofInstrs rfl (by decide) (by decide)
  exact ⟨hwf, by decide, by decide, (runBody_literals idleWorld decidedBody hwf 2 ⟨[], (), ()⟩).1⟩

end Untangle.Machine
