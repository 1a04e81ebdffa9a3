import Untangle.Proofs.Code.Survival
import Untangle.Proofs.Simplification.ChangeCount

/-!
# Labels that nothing refers to

A label that nothing refers to can be taken out unnoticed: every reference leads to the same instruction as
before, and control goes the same ways. So a body that has no dead code has none afterwards.
-/

namespace Untangle

open List Instruction

variable {n : Node} {l : Label}

namespace Body

variable {b : Body}

/-- The body without the labels that nothing refers to. -/
def tidied (b : Body) : Body := b.pruneLabels.2

/-- The node is no label, or something refers to it. -/
def uses (b : Body) (n : Node) : Bool := n.instr.label?.all b.referencedSet.contains

theorem uses_of_isLabel_eq_false (hn : n.isLabel = false) : b.uses n = true := by
  rw [uses, Option.isSome_eq_false_iff.mp hn |> Option.isNone_iff_eq_none.mp]
  rfl

theorem uses_of_isReal (hn : n.isReal = true) : b.uses n = true := by
  rw [uses, label?_of_isReal hn]
  rfl

theorem uses_label (hn : n.instr = .label l) : b.uses n = true ↔ l ∈ b.referenced := by
  simp [uses, hn, label?, mem_referencedSet]

/-- Nothing is dead if control gets to the block of every node but labels. -/
theorem dead_eq_nil_iff (h : Distinct b.nodes) : b.dead = [] ↔ ∀ n ∈ b.nodes, n.isLabel = false → b.Visits n := by
  simp only [dead, reachability_eq h, ← mem_reachable_iff_visits]
  simp

/-- A body in which something refers to every label stays as it is. -/
theorem tidied_eq_self (h : ∀ l ∈ labelsOf b.nodes, l ∈ b.referenced) : b.tidied = b := by
  have hkeep : (b.code.keep b.uses).2 = b.code := by
    refine keep_eq_self fun n hn => ?_
    cases hl : n.instr.label? with
    | none => simp [uses, hl]
    | some l =>
      have hla := label?_eq_some.mp hl
      exact (uses_label hla).mpr (h l (mem_labelsOf.mpr ⟨n, hn, hla⟩))
  change { b with code := (b.code.keep b.uses).2 } = b
  rw [hkeep]

namespace Orderly

variable {b : Body} (h : b.Orderly)

include h

theorem tidied : b.tidied.Orderly := h.filtered (Listing.keep_strands h.intact _)

theorem nodes_tidied : b.tidied.nodes = b.nodes.filter b.uses :=
  Listing.nodes_of_strands (Listing.keep_strands h.intact _)

theorem targetsOf_tidied : targetsOf b.tidied.nodes = targetsOf b.nodes := by
  have hnone : ∀ ns : List Node, targetsOf (ns.filter b.uses) = targetsOf ns := by
    intro ns
    induction ns with
    | nil => rfl
    | cons n ns ih =>
      rw [filter_cons]
      split
      · rw [targetsOf_cons, targetsOf_cons, ih]
      · rename_i hn
        have hr : n.isReal = false := by
          by_contra hr
          exact hn (uses_of_isReal (by simpa using hr))
        rw [targetsOf_cons, targets_of_not_isReal hr, ih, nil_append]
  rw [h.nodes_tidied, hnone]

theorem referenced_tidied : b.tidied.referenced = b.referenced := by
  have htargets := h.targetsOf_tidied
  unfold targetsOf at htargets
  rw [referenced, htargets]
  rfl

theorem labels_tidied : ∀ l ∈ labelsOf b.tidied.nodes, l ∈ b.tidied.referenced := by
  intro l hl
  obtain ⟨a, ha, hla⟩ := mem_labelsOf.mp hl
  rw [h.nodes_tidied] at ha
  rw [h.referenced_tidied]
  exact (uses_label hla).mp (mem_filter.mp ha).2

theorem tidied_tidied : b.tidied.tidied = b.tidied := tidied_eq_self h.labels_tidied

/-- A range protects the instructions that it protected. -/
theorem mem_realBetween_tidied {r : Range} (hr : r ∈ b.ranges) :
    n ∈ b.tidied.realBetween r.start r.stop ↔ n ∈ b.realBetween r.start r.stop := by
  rw [h.tidied.mem_realBetween, h.mem_realBetween, h.nodes_tidied]
  refine and_congr_right fun hreal => ?_
  constructor
  · rintro ⟨a, c, ha, hc, hsub⟩
    exact ⟨a, c, ha, hc, hsub.trans filter_sublist⟩
  · rintro ⟨a, c, ha, hc, hsub⟩
    have ha' := (uses_label ha).mpr (mem_referenced.mpr (.inr (.inl ⟨r, hr, .inl rfl⟩)))
    have hc' := (uses_label hc).mpr (mem_referenced.mpr (.inr (.inl ⟨r, hr, .inr (.inl rfl)⟩)))
    have hsub' := hsub.filter b.uses
    rw [filter_eq_self.mpr (by simp [ha', hc', uses_of_isReal hreal])] at hsub'
    exact ⟨a, c, ha, hc, hsub'⟩

/-- Taking out labels that nothing refers to spares all that control gets to, if nothing is out of reach. -/
theorem spares_tidied (hdead : b.dead = []) : b.Spares b.tidied b.uses where
  nodes := h.nodes_tidied
  real n hn hr := by
    have hlabel : n.isLabel = false := by simp [Node.isLabel, label?_of_isReal hr]
    have hvisits := (dead_eq_nil_iff h.distinct).mp hdead n hn hlabel
    exact ⟨fun _ => (visits_iff_arrives h.distinct (by rw [Node.acts_of_live (h.live hn), hr])).mp hvisits,
      fun _ => uses_of_isReal hr⟩
  targets n hn t ht a _ ha := (uses_label ha).mpr (mem_referenced.mpr (.inl (mem_targetsOf.mpr ⟨n, hn.mem, ht⟩)))
  ranges _ _ _ hr _ := hr
  bounds n _ r hr _ a _ ha := by
    rcases ha with ha | ha | ha
    · exact (uses_label ha).mpr (mem_referenced.mpr (.inr (.inl ⟨r, hr, .inl rfl⟩)))
    · exact (uses_label ha).mpr (mem_referenced.mpr (.inr (.inl ⟨r, hr, .inr (.inl rfl)⟩)))
    · exact (uses_label ha).mpr (mem_referenced.mpr (.inr (.inl ⟨r, hr, .inr (.inr rfl)⟩)))

/-- Taking out labels that nothing refers to leaves nothing dead behind. -/
theorem dead_tidied (hdead : b.dead = []) : b.tidied.dead = [] := by
  have hs := h.spares_tidied hdead
  rw [dead_eq_nil_iff h.tidied.distinct]
  intro n hn hlabel
  exact hs.visits h.distinct (fun _ => h.live) hn
    ((dead_eq_nil_iff h.distinct).mp hdead n (hs.sublist.subset hn) hlabel)

end Orderly

namespace WellFormed

variable {b : Body} (h : b.WellFormed)

include h

theorem tidied : b.tidied.WellFormed := h.pruneLabels

/-- A reference leads to the instruction that it led to. -/
theorem realAt?_tidied (hl : l ∈ b.referenced) : b.tidied.code.realAt? l = b.code.realAt? l := by
  obtain ⟨pre, a, post, hns, hla⟩ := exists_of_mem_labelsOf (h.bound l hl)
  have hns' : b.tidied.nodes = pre.filter b.uses ++ a :: post.filter b.uses := by
    rw [h.orderly.nodes_tidied, hns, filter_append, filter_cons_of_pos ((uses_label hla).mpr hl)]
  rw [h.realAt?_eq hns hla, h.tidied.realAt?_eq hns' hla, List.find?_filter]
  congr 1
  funext n
  cases hr : n.isReal
  · simp
  · simp [uses_of_isReal hr]

end WellFormed

/-! ### Nothing dead -/

/-- Control can come to every instruction and line, and every range protects an instruction. -/
structure Alive (b : Body) : Prop where
  dead : b.dead = []
  ranges : ∀ r ∈ b.ranges, b.realBetween r.start r.stop ≠ []

theorem Orderly.alive_tidied (h : b.Orderly) (halive : b.Alive) : b.tidied.Alive where
  dead := h.dead_tidied halive.dead
  ranges r hr := by
    obtain ⟨n, hn⟩ := exists_mem_of_ne_nil _ (halive.ranges r hr)
    exact ne_nil_of_mem ((h.mem_realBetween_tidied hr).mpr hn)

theorem withoutDead_eq_self (h : b.dead = []) : b.withoutDead = b := by
  unfold dead at h
  unfold withoutDead
  simp [h]

theorem withoutBarren_eq_zero_iff : b.withoutBarren.1 = 0 ↔ ∀ r ∈ b.ranges, b.realBetween r.start r.stop ≠ [] := by
  have hsub : (b.ranges.filter fun r => !(b.realBetween r.start r.stop).isEmpty).length ≤ b.ranges.length :=
    length_filter_le _ _
  have hall : (b.ranges.filter fun r => !(b.realBetween r.start r.stop).isEmpty).length = b.ranges.length ↔
      ∀ r ∈ b.ranges, b.realBetween r.start r.stop ≠ [] := by
    simp
  rw [← hall]
  simp only [withoutBarren]
  omega

theorem withoutBarren_eq_self (h : b.withoutBarren.1 = 0) : b.withoutBarren.2 = b := by
  have hranges : b.ranges.filter (fun r => !(b.realBetween r.start r.stop).isEmpty) = b.ranges :=
    filter_eq_self.mpr fun r hr => by simpa using withoutBarren_eq_zero_iff.mp h r hr
  simp [withoutBarren, hranges]

/-- Nothing is taken out but labels exactly if nothing is dead. -/
theorem removeDeadCode_eq_zero_iff : b.removeDeadCode.1 = 0 ↔ b.Alive := by
  have hcount : b.removeDeadCode.1 = b.dead.length + b.withoutDead.withoutBarren.1 := rfl
  rw [hcount, Nat.add_eq_zero_iff, length_eq_zero_iff]
  constructor
  · rintro ⟨hdead, hbarren⟩
    rw [withoutDead_eq_self hdead, withoutBarren_eq_zero_iff] at hbarren
    exact ⟨hdead, hbarren⟩
  · intro h
    exact ⟨h.dead, by rw [withoutDead_eq_self h.dead, withoutBarren_eq_zero_iff]; exact h.ranges⟩

theorem Alive.removeDeadCode (h : b.Alive) : b.removeDeadCode = (0, b.tidied) := by
  have hbody : b.removeDeadCode.2 = b.withoutDead.withoutBarren.2.tidied := rfl
  rw [Prod.ext_iff, hbody, withoutDead_eq_self h.dead, withoutBarren_eq_self (withoutBarren_eq_zero_iff.mpr h.ranges)]
  exact ⟨removeDeadCode_eq_zero_iff.mpr h, rfl⟩

end Body

end Untangle
