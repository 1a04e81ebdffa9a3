import Untangle.Proofs.Simplification.ChainEnds
import Untangle.Proofs.Simplification.Sweep

/-!
# What simplifications take off a body

The weight of a body is the number of its instructions, lines and ranges. Every change that a rule on literals
makes takes something off it, dead code is counted as it is taken off, and collapsing chains of jumps leaves
it alone.
-/

namespace Untangle

open List Operand

/-! ### Rules that shorten -/

/-- The rule takes at least one node away. -/
def Rule.Shortens (rule : Rule) : Prop :=
  ∀ passed n passed', rule passed n = some passed' → passed'.length ≤ passed.length

/-- Each change is a node less. -/
theorem Rule.Shortens.sweep {rule : Rule} (h : rule.Shortens) (changes : Nat) (passed ns : List Node) :
    (rule.sweep changes passed ns).2.length + (rule.sweep changes passed ns).1 ≤
      passed.length + ns.length + changes := by
  induction ns generalizing changes passed with
  | nil => simp [Rule.sweep]
  | cons n _ ih =>
    rw [Rule.sweep]
    cases hr : rule passed n with
    | none =>
      have := ih changes (n :: passed)
      rw [length_cons] at this ⊢
      dsimp only
      omega
    | some passed' =>
      have := ih (changes + 1) passed'
      have := h passed n passed' hr
      rw [length_cons]
      dsimp only
      omega

namespace Operand

variable {referenced : Label → Bool} {passed : List Node} {o : Operand}

theorem length_dropped (h : find referenced passed = some o) : o.dropped.length + 1 = passed.length := by
  rw [passed_eq h, dropped]
  simp only [length_append, length_cons]
  omega

theorem length_replaced (h : find referenced passed = some o) (i : Instr) : (o.replaced i).length = passed.length := by
  rw [passed_eq h, replaced]
  simp [length_append]

end Operand

namespace Literals

variable {referenced : Label → Bool} {passed passed' : List Node}

theorem length_pair {right left : Operand} {r l : Literal} (h : pair? referenced passed = some (right, r, left, l)) :
    (right.between ++ left.dropped).length + 2 = passed.length := by
  obtain ⟨hright, -, hleft, -⟩ := pair?_eq_some h
  have hlength := length_dropped hleft
  rw [passed_eq hright]
  simp only [length_append, length_cons]
  omega

theorem foldRule_shortens (referenced : Label → Bool) : (foldRule referenced).Shortens := by
  intro _ n _ h
  obtain ⟨_, _, -, ⟨-, o, ho, ⟨-, rfl⟩ | ⟨v, u, result, -, -, -, -, rfl⟩⟩ |
    ⟨-, _, r, _, l, u, v, result, hpair, -, -, -, -, rfl⟩⟩ := foldRule_eq_some h
  · exact le_of_lt (length_dropped ho).le
  · exact (length_replaced ho _).le
  · obtain ⟨hright, -, hleft, -⟩ := pair?_eq_some hpair
    have hpassed := congrArg length (passed_eq hright)
    simp only [length_append, length_cons, length_replaced hleft] at hpassed ⊢
    omega

theorem branchRule_shortens (referenced : Label → Bool) : (branchRule referenced).Shortens := by
  intro passed n _ h
  obtain ⟨_, _, _, dropped, _, -, ht, -, rfl⟩ := branchRule_eq_some h
  have hshorter : dropped.length < passed.length := by
    obtain ⟨_, r, _, l, hpair, -, rfl⟩ | ⟨o, v, ho, -, -, rfl⟩ := tested?_eq_some ht
    · have := length_pair hpair
      omega
    · exact (length_dropped ho).le
  split
  · exact hshorter
  · exact le_of_lt hshorter

theorem switchRule_shortens (referenced : Label → Bool) : (switchRule referenced).Shortens := by
  intro _ n _ h
  obtain ⟨-, o, _, _, ho, -, -, rfl⟩ := switchRule_eq_some h
  exact (length_dropped ho).le

theorem popRule_shortens (referenced : Label → Bool) : (popRule referenced).Shortens := by
  intro _ n _ h
  obtain ⟨_, o, v, -, -, ho, -, rfl⟩ | ⟨-, _, r, _, l, hpair, -, -, rfl⟩ := popRule_eq_some h
  · exact le_of_lt (length_dropped ho).le
  · have := length_pair hpair
    omega

end Literals

/-! ### Bodies -/

/-- What is no label is an instruction or a line. -/
theorem countP_not_isLabel (ns : List Node) : ns.countP (fun n => !n.isLabel) + (labelsOf ns).length = ns.length := by
  rw [length_labelsOf, Nat.add_comm, length_eq_countP_add_countP Node.isLabel]
  simp

namespace Body

/-- How many instructions, lines and ranges a body has. -/
def weight (b : Body) : Nat := b.nodes.countP (fun n => !n.isLabel) + b.ranges.length

/-- Of nodes that are marked as reached or not, those that stay and those that go make up all. -/
theorem countP_marked {marked : List (Node × Bool)} (h : ∀ p ∈ marked, p.1.live = true) :
    ((marked.filter fun p => p.1.isLabel || p.2 || !p.1.live).map Prod.fst).countP (fun n => !n.isLabel) +
        (marked.filter fun p => !p.1.isLabel && !p.2).length =
      (marked.map Prod.fst).countP fun n => !n.isLabel := by
  induction marked with
  | nil => rfl
  | cons p marked =>
    obtain ⟨n, reached⟩ := p
    cases hl : n.isLabel <;> cases reached <;> simp_all <;> omega

/-- Ranges are counted as they are taken off. -/
theorem weight_withoutBarren (b : Body) : b.withoutBarren.2.weight + b.withoutBarren.1 = b.weight := by
  have hle := b.ranges.length_filter_le fun r => !(b.realBetween r.start r.stop).isEmpty
  simp only [withoutBarren, weight, nodes]
  omega

namespace WellFormed

variable {b : Body} (h : b.WellFormed)

include h

/-- Every change of a rule that shortens takes something off the weight. -/
theorem weight_sweep {rule : (Label → Bool) → Rule} (hmild : ∀ referenced, (rule referenced).Mild)
    (hshort : ∀ referenced, (rule referenced).Shortens) : (b.sweep rule).2.weight + (b.sweep rule).1 ≤ b.weight := by
  have htrims := (hmild b.referencedSet.contains).sweep 0 [] b.nodes
  have hlength := (hshort b.referencedSet.contains).sweep 0 [] b.nodes
  unfold Body.sweep
  cases hsweep : (rule b.referencedSet.contains).sweep 0 [] b.nodes with
  | mk changes ms =>
    rw [hsweep] at htrims hlength
    simp only [hsweep]
    cases changes with
    | zero => exact le_rfl
    | succ k =>
      have hms : { b with code := { b.code.withNodes ms with modified := true } }.nodes = ms := by
        refine Listing.nodes_of_strands (Listing.withNodes_strands h.intact fun hnil => ?_)
        have hnil : b.nodes = [] := hnil
        rw [hnil] at hlength
        dsimp only [length_nil] at hlength
        omega
      have hlabels : labelsOf ms = labelsOf b.nodes := htrims.labels
      have hold := countP_not_isLabel b.nodes
      have hnew := countP_not_isLabel ms
      rw [hlabels] at hnew
      simp only [weight, hms]
      dsimp only [length_nil] at hlength
      omega

/-- Jumps that are sent elsewhere weigh what they did. -/
theorem weight_collapseJumpChains : b.collapseJumpChains.2.weight = b.weight := by
  have hlabel : ∀ n : Node, (n.retarget fun l => b.chainEnds.getD l l).isLabel = n.isLabel := by
    intro n
    rw [Node.isLabel, Node.isLabel, Node.instr_retarget, Instruction.label?_mapTargets]
  rw [h.collapseJumpChains_eq, weight, weight, nodes_redirect h.intact, ranges_redirect]
  simp [Function.comp_def, hlabel]

theorem weight_tidied : b.tidied.weight = b.weight := by
  rw [weight, h.orderly.nodes_tidied, countP_filter]
  congr 2
  funext n
  cases hl : n.isLabel
  · simp [uses_of_isLabel_eq_false hl]
  · simp

/-- Nodes that are dead are counted as they are taken off. -/
theorem weight_withoutDead : b.withoutDead.weight + b.dead.length = b.weight := by
  have hlive : ∀ p ∈ b.reachability, p.1.live = true := by
    intro p hp
    refine h.live ?_
    rw [← b.map_fst_reachability]
    exact mem_map_of_mem hp
  have hranges : b.withoutDead.ranges = b.ranges := rfl
  by_cases hdead : b.dead = []
  · rw [withoutDead_eq_self hdead, hdead]
    rfl
  · have hnodes : b.withoutDead.nodes =
        (b.reachability.filter fun p => p.1.isLabel || p.2 || !p.1.live).map Prod.fst := by
      have hgone : ¬ (((b.reachability.filter fun p => !p.1.isLabel && !p.2).filter (·.1.live)).map
          (·.1.id)).isEmpty = true := by
        rw [List.isEmpty_iff, map_eq_nil_iff, filter_eq_self.mpr]
        · exact hdead
        · exact fun p hp => hlive p (mem_filter.mp hp).1
      have hcode : b.withoutDead.code = { b.code.withNodes ((b.reachability.filter fun p =>
          p.1.isLabel || p.2 || !p.1.live).map Prod.fst) with modified := true } := by
        exact if_neg hgone
      rw [nodes, hcode]
      refine Listing.nodes_of_strands (Listing.withNodes_strands h.intact fun hnil => ?_)
      have hnone : b.reachability = [] := by
        rw [← map_eq_nil_iff, b.map_fst_reachability]
        exact hnil
      rw [hnone]
      rfl
    have hall : b.withoutDead.nodes.countP (fun n => !n.isLabel) + b.dead.length =
        b.nodes.countP fun n => !n.isLabel := by
      rw [hnodes, ← b.map_fst_reachability]
      exact countP_marked hlive
    rw [weight, weight, hranges]
    omega

/-- Dead code is counted as it is taken off. -/
theorem weight_removeDeadCode : b.removeDeadCode.2.weight + b.removeDeadCode.1 = b.weight := by
  have hcount : b.removeDeadCode.1 = b.dead.length + b.withoutDead.withoutBarren.1 := rfl
  have hbody : b.removeDeadCode.2 = b.withoutDead.withoutBarren.2.tidied := rfl
  have hwell : b.withoutDead.withoutBarren.2.WellFormed := h.withoutDead.filterRanges _ _
  have hnodes := h.weight_withoutDead
  have hranges := b.withoutDead.weight_withoutBarren
  rw [hbody, hwell.weight_tidied]
  omega

end WellFormed

end Body

end Untangle
