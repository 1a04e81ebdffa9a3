import Std.Data.TreeSet.Lemmas
import Untangle.Proofs.Code.Reachability

/-!
# Taking out dead code

What control cannot come to can go: an instruction that stays and falls through has one to fall to, and
the targets of a jump that stays have an instruction behind them. Labels that nothing refers to can go
because they are neither targets nor bounds of ranges.
-/

namespace Untangle

open List Listing

variable {l : Label} {b' : Body} {test : Node → Bool}

/-- Behind a label there still is an instruction if both stay. -/
theorem lands_filter {pre post : List Node} {a m : Node} (ha : a.instr = .label l) (hat : test a = true)
    (hm : m ∈ post) (hmr : m.isReal = true) (hmt : test m = true) : Lands ((pre ++ a :: post).filter test) l := by
  rw [filter_append, filter_cons_of_pos hat]
  exact ⟨_, a, _, rfl, ha, m, mem_filter.mpr ⟨hm, hmt⟩, hmr⟩

namespace Body

theorem mem_referencedSet {b : Body} : l ∈ b.referencedSet ↔ l ∈ b.referenced := by
  simp [referencedSet]

/-- A body without the nodes that control cannot come to. -/
def withoutDead (b : Body) : Body :=
  let marked := b.reachability
  let gone := ((marked.filter fun (n, reached) => !n.isLabel && !reached).filter (·.1.live)).map (·.1.id)
  { b with
    code :=
      if gone.isEmpty then b.code
      else
        let kept := marked.filter fun (n, reached) => n.isLabel || reached || !n.live
        { b.code.withNodes (kept.map Prod.fst) with modified := true } }

/-- Taking out dead code is taking out nodes, then ranges, then labels. -/
theorem removeDeadCode_eq (b : Body) :
    ∃ dirty, b.removeDeadCode.2 = ({ b.withoutDead with
      ranges := b.ranges.filter fun r => !(b.withoutDead.realBetween r.start r.stop).isEmpty
      dirty } : Body).pruneLabels.2 :=
  ⟨_, rfl⟩

/-- The node is no dead code: it is a label, or the flow graph finds it. What was removed already is not looked at. -/
def keeps (b : Body) (n : Node) : Bool := n.isLabel || (FlowGraph.of b).reachable.contains n || !n.live

namespace Orderly

variable {b : Body} (h : b.Orderly)

include h

/-- A body stays orderly when some of its nodes are taken out. -/
theorem filtered (hs : b'.code.strands = Listing.single (b.nodes.filter test)) : b'.Orderly := by
  have hns : b'.nodes = b.nodes.filter test := nodes_of_strands hs
  have hsub : (b.nodes.filter test).Sublist b.nodes := filter_sublist
  exact ⟨intact_of_strands hs fun n hn => h.live (hsub.subset hn), hns ▸ h.distinct.sublist hsub⟩

theorem keeps_iff_arrives {n : Node} (hn : n ∈ b.nodes) (hr : n.isReal = true) : b.keeps n = true ↔ b.Arrives n := by
  have hno : n.isLabel = false := by simp [Node.isLabel, Instruction.label?_of_isReal hr]
  have hacts : n.acts = true := by rwa [Node.acts_of_live (h.live hn)]
  rw [keeps, hno, h.live hn, Bool.false_or, Bool.not_true, Bool.or_false, contains_iff_mem,
    mem_reachable_iff_visits, visits_iff_arrives h.distinct hacts]

/-- What is not dead is left. -/
theorem strands_withoutDead : b.withoutDead.code.strands = Listing.single (b.nodes.filter b.keeps) := by
  have hmarked : (b.reachability.filter fun p => p.1.isLabel || p.2 || !p.1.live).map Prod.fst =
      b.nodes.filter b.keeps := by
    rw [reachability_eq h.distinct, filter_map, map_map]
    exact map_id _
  unfold withoutDead
  dsimp only
  split
  · -- nothing is dead, so everything stays
    rename_i hgone
    rw [filter_eq_self.mpr]
    · exact h.intact.strands
    · intro n hn
      rw [List.isEmpty_iff, map_eq_nil_iff, filter_eq_nil_iff] at hgone
      by_contra hdead
      simp only [keeps, Bool.or_eq_true, Bool.not_eq_true', not_or, Bool.not_eq_true, Bool.not_eq_false] at hdead
      refine hgone (n, (FlowGraph.of b).reachable.contains n) ?_ hdead.2
      rw [reachability_eq h.distinct]
      exact mem_filter.mpr ⟨mem_map_of_mem hn, by rw [hdead.1.1, hdead.1.2]; rfl⟩
  · refine (withNodes_strands h.intact fun hnil => ?_).trans (congrArg single hmarked)
    have hnodes : b.nodes = [] := hnil
    rw [hmarked, hnodes]
    rfl

end Orderly

namespace WellFormed

variable {b : Body} (h : b.WellFormed)

include h

/-- A body stays well-formed when some of its nodes are taken out, if control stays inside and the
bounds of ranges and variables stay bound. -/
theorem filtered (hs : b'.code.strands = Listing.single (b.nodes.filter test))
    (hid : b'.code.nextId = b.code.nextId) (hlabel : b'.code.nextLabel = b.code.nextLabel)
    (hclosed : Closed (b.nodes.filter test))
    (hranges : ∀ r ∈ b'.ranges, r.start ∈ labelsOf (b.nodes.filter test) ∧
      r.stop ∈ labelsOf (b.nodes.filter test) ∧ r.handler ∈ labelsOf (b.nodes.filter test))
    (hlocals : ∀ v ∈ b'.locals, v.start ∈ labelsOf (b.nodes.filter test) ∧
      v.stop ∈ labelsOf (b.nodes.filter test)) : b'.WellFormed := by
  have hmem : ∀ n ∈ b.nodes.filter test, n ∈ b.nodes := fun n hn => (mem_filter.mp hn).1
  have hsub : (b.nodes.filter test).Sublist b.nodes := filter_sublist
  apply wellFormed_of_nodes hs (fun n hn => h.live (hmem n hn))
  · exact (hsub.map _).nodup h.ids_nodup
  · intro n hn
    rw [hid]
    exact h.sound.ids_lt n (hmem n hn)
  · intro l hl
    rw [hlabel]
    exact h.sound.labels_lt l ((hsub.filterMap _).subset hl)
  · exact (hsub.filterMap _).nodup h.bound_once
  · exact hclosed
  · exact hranges
  · exact hlocals
  · exact fun n hn => h.tables n (hmem n hn)
  · exact fun n hn => h.maths n (hmem n hn)

/-- Taking out ranges keeps a body well-formed. -/
theorem filterRanges (test : Range → Bool) (dirty : Bool) :
    { b with ranges := b.ranges.filter test, dirty }.WellFormed :=
  wellFormed_of_nodes h.strands (fun _ => h.live) h.ids_nodup h.sound.ids_lt h.sound.labels_lt
    h.bound_once h.closed (fun _ hr => h.range_bound (mem_filter.mp hr).1) (fun _ => h.local_bound)
    h.tables h.maths

/-! ### Labels -/

/-- Taking out the labels that nothing refers to keeps a body well-formed. -/
theorem pruneLabels : b.pruneLabels.2.WellFormed := by
  have hstays : ∀ {ns : List Node} {l : Label}, l ∈ labelsOf ns → l ∈ b.referenced →
      l ∈ labelsOf (ns.filter fun n => n.instr.label?.all b.referencedSet.contains) := by
    intro ns l hl href
    obtain ⟨a, ha, hla⟩ := mem_labelsOf.mp hl
    refine mem_labelsOf.mpr ⟨a, mem_filter.mpr ⟨ha, ?_⟩, hla⟩
    simpa [hla, Instruction.label?] using mem_referencedSet.mpr href
  have hreal : ∀ n : Node, n.isReal = true → n.instr.label?.all b.referencedSet.contains = true := by
    intro n hn
    rw [Instruction.label?_of_isReal hn]
    rfl
  refine h.filtered (keep_strands h.intact _) (keep_nextId ..) (keep_nextLabel ..) ?_ ?_ ?_
  · apply closed_of_ends
    · intro last hlast
      refine h.ends last ?_
      rw [filter_filter] at hlast
      rw [← hlast]
      congr 2
      funext n
      cases hr : n.isReal
      · rfl
      · simp [hreal n hr]
    · intro t ht
      obtain ⟨n, hn, ht⟩ := mem_targetsOf.mp ht
      have ht : t ∈ targetsOf b.nodes := mem_targetsOf.mpr ⟨n, (mem_filter.mp hn).1, ht⟩
      obtain ⟨_, a, _, hns, ha, m, hm, hmr⟩ := h.lands t ht
      rw [hns]
      refine lands_filter ha ?_ hm hmr (hreal m hmr)
      simpa [ha, Instruction.label?] using mem_referencedSet.mpr (mem_referenced.mpr (.inl ht))
  · intro r hr
    have hb := h.range_bound hr
    exact ⟨hstays hb.1 (mem_referenced.mpr (.inr (.inl ⟨r, hr, .inl rfl⟩))),
      hstays hb.2.1 (mem_referenced.mpr (.inr (.inl ⟨r, hr, .inr (.inl rfl)⟩))),
      hstays hb.2.2 (mem_referenced.mpr (.inr (.inl ⟨r, hr, .inr (.inr rfl)⟩)))⟩
  · intro v hv
    have hb := h.local_bound hv
    exact ⟨hstays hb.1 (mem_referenced.mpr (.inr (.inr ⟨v, hv, .inl rfl⟩))),
      hstays hb.2 (mem_referenced.mpr (.inr (.inr ⟨v, hv, .inr rfl⟩)))⟩

/-! ### Instructions -/

/-- Control stays inside what it can come to. -/
theorem closed_filter_reached {kept : Node → Bool} (hlabel : ∀ n ∈ b.nodes, n.isLabel = true → kept n = true)
    (hkept : ∀ n ∈ b.nodes, n.isReal = true → (kept n = true ↔ b.Reaches n)) : Closed (b.nodes.filter kept) := by
  apply closed_of_ends
  · -- an instruction that falls through and stays is not the last that stays
    intro last hlast
    by_contra hfall
    obtain ⟨hkept', hr⟩ := mem_filter.mp (mem_of_getLast? hlast)
    obtain ⟨hmem, hstays⟩ := mem_filter.mp hkept'
    obtain ⟨pre, post, hns⟩ := append_of_mem hmem
    obtain ⟨m, hm⟩ : ∃ m, post.find? Node.isReal = some m := by
      rw [← Option.isSome_iff_exists]
      by_contra hno
      refine hfall (h.ends last ?_)
      rw [hns]
      exact getLast?_filter_real hr (by simpa using hno)
    have hreach : b.Reaches m := .step ((hkept last hmem hr).mp hstays) (.fall hns (by simpa using hfall) hm)
    have hmp := mem_of_find?_eq_some hm
    have hmr := hreach.isReal
    have hmk : m ∈ (post.filter kept).filter Node.isReal :=
      mem_filter.mpr ⟨mem_filter.mpr ⟨hmp, (hkept m (by rw [hns]; simp [hmp]) hmr).mpr hreach⟩, hmr⟩
    rw [hns, filter_append, filter_cons_of_pos hstays, filter_append, filter_cons_of_pos hr,
      getLast?_append_cons, getLast?_cons_of_ne_nil (ne_nil_of_mem hmk)] at hlast
    have hagain : last ∈ post :=
      (mem_filter.mp (mem_filter.mp (mem_of_getLast? hlast)).1).1
    have hnodup := h.nodup
    rw [hns, nodup_append, nodup_cons] at hnodup
    exact hnodup.2.1.1 hagain
  · intro t ht
    obtain ⟨n, hn, ht⟩ := mem_targetsOf.mp ht
    obtain ⟨hmem, hstays⟩ := mem_filter.mp hn
    obtain ⟨pre, a, post, hns, ha, hpost⟩ := h.lands t (mem_targetsOf.mpr ⟨n, hmem, ht⟩)
    have hr : n.isReal = true := by
      by_contra hr
      have hnil : n.instr.targets = [] := Instruction.targets_of_not_isReal (Bool.eq_false_iff.mpr hr)
      exact ne_nil_of_mem ht hnil
    obtain ⟨m, hm⟩ := Option.isSome_iff_exists.mp (find?_isSome.mpr hpost)
    have hreach : b.Reaches m :=
      .step ((hkept n hmem hr).mp hstays) (.jump ht ((h.realAt?_eq hns ha).trans hm))
    have hmp := mem_of_find?_eq_some hm
    have hmk := (hkept m (by rw [hns]; simp [hmp]) hreach.isReal).mpr hreach
    have hak : kept a = true := hlabel a (by rw [hns]; simp) (by simp [Node.isLabel, ha, Instruction.label?])
    rw [hns]
    exact lands_filter ha hak hmp hreach.isReal hmk

/-- The instructions that stay are those that control can come to, and all labels stay. -/
theorem nodes_withoutDead : ∃ kept : Node → Bool, b.withoutDead.code.strands = Listing.single (b.nodes.filter kept) ∧
    (∀ n ∈ b.nodes, n.isLabel = true → kept n = true) ∧
    ∀ n ∈ b.nodes, n.isReal = true → (kept n = true ↔ b.Reaches n) := by
  refine ⟨b.keeps, h.orderly.strands_withoutDead, fun n _ hn => by simp [keeps, hn], fun n hn hr => ?_⟩
  rw [h.orderly.reaches_iff_arrives]
  exact h.orderly.keeps_iff_arrives hn hr

theorem withoutDead : b.withoutDead.WellFormed := by
  obtain ⟨kept, hs, hlabel, hreal⟩ := h.nodes_withoutDead
  have hbound : ∀ l ∈ labelsOf b.nodes, l ∈ labelsOf (b.nodes.filter kept) := by
    intro l hl
    obtain ⟨a, ha, hla⟩ := mem_labelsOf.mp hl
    exact mem_labelsOf.mpr ⟨a, mem_filter.mpr ⟨ha, hlabel a ha (by simp [Node.isLabel, hla, Instruction.label?])⟩, hla⟩
  have hnext : b.withoutDead.code.nextId = b.code.nextId ∧ b.withoutDead.code.nextLabel = b.code.nextLabel := by
    unfold Body.withoutDead
    dsimp only
    split
    · exact ⟨rfl, rfl⟩
    · exact ⟨rfl, rfl⟩
  refine h.filtered hs hnext.1 hnext.2 (h.closed_filter_reached hlabel hreal) ?_ ?_
  · exact fun r hr => ⟨hbound _ (h.range_bound hr).1, hbound _ (h.range_bound hr).2.1,
      hbound _ (h.range_bound hr).2.2⟩
  · exact fun v hv => ⟨hbound _ (h.local_bound hv).1, hbound _ (h.local_bound hv).2⟩

/-- Taking out dead code keeps a body well-formed. -/
theorem removeDeadCode : b.removeDeadCode.2.WellFormed := by
  obtain ⟨dirty, he⟩ := b.removeDeadCode_eq
  rw [he]
  exact (h.withoutDead.filterRanges _ dirty).pruneLabels

end WellFormed

end Body

end Untangle
