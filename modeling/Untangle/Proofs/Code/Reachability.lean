import Untangle.Proofs.Code.Passage

/-!
# Reachability in orderly bodies

Where nothing was removed, the ways of control are read off the listing itself: a label leads to the first
instruction behind it (`Listing.realAt?`), and a range protects the instructions between its labels
(`Body.realBetween`). These are the ways of control of the body.
-/

namespace Untangle

open List

variable {n c m : Node} {start stop l : Label} {mid post ns : List Node} {stop p : Nat} {done pre : List Node}
  {a : Node}

namespace Body

/-- Control can go from one instruction to another in one step. -/
inductive Next (b : Body) (n : Node) : Node → Prop where
  | fall {pre post : List Node} {m : Node} : b.nodes = pre ++ n :: post → n.instr.fallsThrough = true →
      post.find? Node.isReal = some m → Next b n m
  | jump {t : Label} {m : Node} : t ∈ n.instr.targets → b.code.realAt? t = some m → Next b n m
  | thrown {r : Range} {m : Node} : r ∈ b.ranges → n ∈ b.realBetween r.start r.stop →
      b.code.realAt? r.handler = some m → Next b n m

/-- Control can come to an instruction from the first one. -/
inductive Reaches (b : Body) : Node → Prop where
  | entry {n : Node} : b.nodes.find? Node.isReal = some n → Reaches b n
  | step {n m : Node} : Reaches b n → Next b n m → Reaches b m

theorem Reaches.isReal {b : Body} (h : b.Reaches n) : n.isReal = true := by
  cases h with
  | entry h => exact find?_some h
  | step _ hn =>
    cases hn with
    | fall _ _ h => exact find?_some h
    | jump _ h => exact find?_some h
    | thrown _ _ h => exact find?_some h

end Body

/-! ### Between two labels -/

/-- The walk up to a node collects the instructions before it, unless it meets a node that was removed. -/
theorem Body.realUpTo_append (hc : c.id = stop) (hmid : ∀ n ∈ mid, n.id ≠ stop) :
    realUpTo stop done (mid ++ c :: post) =
      if mid.all Node.live then done.reverse ++ mid.filter Node.acts else [] := by
  induction mid generalizing done with
  | nil => simp [realUpTo, hc]
  | cons n mid ih =>
    rw [cons_append, realUpTo, if_neg (hmid n (by simp)), ih fun m hm => hmid m (by simp [hm])]
    by_cases hlive : n.live = true
    · by_cases hr : n.isReal = true <;> simp [hlive, hr, Node.acts]
    · simp [hlive]

theorem Body.realUpTo_eq_nil (hns : ∀ n ∈ ns, n.id ≠ stop) : realUpTo stop done ns = [] := by
  induction ns generalizing done with
  | nil => rfl
  | cons n ns ih =>
    rw [realUpTo, if_neg (hns n (by simp))]
    split
    · exact ih fun m hm => hns m (by simp [hm])
    · rfl

/-- Two labels with a node between them cut a run in three. -/
theorem covers_iff :
    Covers ns start stop n ↔ ∃ pre a mid c post, ns = pre ++ a :: (mid ++ c :: post) ∧
      a.instr = .label start ∧ c.instr = .label stop ∧ n ∈ mid := by
  constructor
  · rintro ⟨a, c, ha, hc, hs⟩
    obtain ⟨_, _, rfl, har, hs₂⟩ := cons_sublist_iff.mp hs
    obtain ⟨r₃, _, rfl, hnr, hs₄⟩ := cons_sublist_iff.mp hs₂
    obtain ⟨pre, r₅, rfl⟩ := append_of_mem har
    obtain ⟨r₆, post, rfl⟩ := append_of_mem (singleton_sublist.mp hs₄)
    exact ⟨pre, a, r₅ ++ r₃ ++ r₆, c, post, by simp, ha, hc, by simp [hnr]⟩
  · rintro ⟨pre, a, mid, c, post, rfl, ha, hc, hn⟩
    refine ⟨a, c, ha, hc, sublist_append_of_sublist_right (Sublist.cons_cons a ?_)⟩
    exact (singleton_sublist.mpr hn).append (singleton_sublist.mpr (by simp))

namespace Body.Orderly

variable {b : Body} (h : b.Orderly)

include h

theorem realBetween_eq (hns : b.nodes = pre ++ a :: (mid ++ c :: post)) (ha : a.instr = .label start)
    (hc : c.instr = .label stop) : b.realBetween start stop = mid.filter Node.isReal := by
  have hc' : c ∈ b.nodes := by simp [hns]
  have har : a.isReal = false := by simp [Node.isReal, ha, Instruction.isReal]
  rw [realBetween, h.labelNode?_eq hc' hc]
  simp only
  have hns' : b.nodes = (pre ++ a :: mid) ++ c :: post := by simp [hns]
  have hlive : ∀ n ∈ a :: mid, n.live = true := fun n hn =>
    h.live (by rw [hns']; exact mem_append_left _ (mem_append_right _ hn))
  rw [h.fromLabel_eq hns ha, ← cons_append, realUpTo_append rfl fun n hn =>
    id_not_mem_of_nodup (hns' ▸ h.distinct.ids) n (mem_append_right _ hn), if_pos (all_eq_true.mpr hlive),
    filter_congr fun n hn => Node.acts_of_live (hlive n hn), filter_cons_of_neg (by simp [har])]
  rfl

/-- The nodes between two labels are the instructions covered by them. -/
theorem mem_realBetween : n ∈ b.realBetween start stop ↔ n.isReal = true ∧ Covers b.nodes start stop n := by
  rw [covers_iff]
  constructor
  · intro hn
    by_cases hstop : stop ∈ labelsOf b.nodes
    · obtain ⟨c, hc, hl⟩ := mem_labelsOf.mp hstop
      rw [realBetween, h.labelNode?_eq hc hl] at hn
      by_cases hstart : start ∈ labelsOf b.nodes
      · obtain ⟨pre, a, rest, hns, hla⟩ := exists_of_mem_labelsOf hstart
        by_cases hcr : c ∈ rest
        · obtain ⟨mid, post, rfl⟩ := append_of_mem hcr
          have hb := h.realBetween_eq hns hla hl
          rw [realBetween, h.labelNode?_eq hc hl] at hb
          rw [hb] at hn
          obtain ⟨hn, hr⟩ := mem_filter.mp hn
          exact ⟨hr, pre, a, mid, c, post, hns, hla, hl, hn⟩
        · -- the walk starts behind the node where it should stop, or there
          simp only at hn
          rw [h.fromLabel_eq hns hla] at hn
          by_cases hac : a.id = c.id
          · simp [realUpTo, hac] at hn
          · rw [realUpTo_eq_nil] at hn
            · cases hn
            · intro m hm
              rcases mem_cons.mp hm with rfl | hm
              · exact hac
              · intro he
                refine hcr ?_
                rwa [← eq_of_id_eq h.distinct.ids (by rw [hns]; simp [hm]) hc he]
      · simp only at hn
        rw [h.fromLabel_eq_nil hstart] at hn
        cases hn
    · rw [realBetween, h.labelNode?_eq_none hstop] at hn
      cases hn
  · rintro ⟨hr, pre, a, mid, c, post, hns, ha, hc, hn⟩
    rw [h.realBetween_eq hns ha hc]
    exact mem_filter.mpr ⟨hn, hr⟩

/-! ### The same ways of control -/

theorem acts_eq (hn : n ∈ b.nodes) : n.acts = n.isReal := Node.acts_of_live (h.live hn)

theorem find?_acts (hns : ns ⊆ b.nodes) : ns.find? Node.acts = ns.find? Node.isReal := by
  induction ns with
  | nil => rfl
  | cons n ns ih =>
    rw [cons_subset] at hns
    rw [find?_cons, find?_cons, h.acts_eq hns.1, ih hns.2]

theorem exists_of_realAt? (hm : b.code.realAt? l = some m) :
    ∃ pre a post, b.nodes = pre ++ a :: post ∧ a.instr = .label l ∧ post.find? Node.isReal = some m := by
  have hl : l ∈ labelsOf b.nodes := by
    by_contra hl
    rw [Listing.realAt?, h.fromLabel_eq_nil hl] at hm
    cases hm
  obtain ⟨pre, a, post, hns, hla⟩ := exists_of_mem_labelsOf hl
  exact ⟨pre, a, post, hns, hla, by rwa [h.realAt?_eq hns hla] at hm⟩

/-- The first instruction behind a label is where the label leads. -/
theorem heads_iff_realAt? : Heads b.nodes l m ↔ b.code.realAt? l = some m := by
  constructor
  · rintro ⟨a, hla, pre, post, hns, hm⟩
    rw [h.realAt?_eq hns hla, ← h.find?_acts (by rw [hns]; simp)]
    exact hm
  · intro hm
    obtain ⟨pre, a, post, hns, hla, hm⟩ := h.exists_of_realAt? hm
    rw [← h.find?_acts (by rw [hns]; simp)] at hm
    exact ⟨a, hla, pre, post, hns, hm⟩

theorem next_iff_passes (hr : n.isReal = true) : b.Next n m ↔ b.Passes n m := by
  constructor
  · intro hnext
    cases hnext with
    | @fall pre post _ hns hf hm =>
      rw [← h.find?_acts (by rw [hns]; simp)] at hm
      exact .fall hf ⟨pre, post, hns, hm⟩
    | jump ht hm => exact .jump ht (h.heads_iff_realAt?.mpr hm)
    | thrown hrange hbetween hm =>
      exact .thrown hrange ((encloses_iff_covers hr).mpr (h.mem_realBetween.mp hbetween).2)
        (h.heads_iff_realAt?.mpr hm)
  · intro hpass
    cases hpass with
    | fall hf hm =>
      obtain ⟨pre, post, hns, hm⟩ := hm
      rw [h.find?_acts (by rw [hns]; simp)] at hm
      exact .fall hns hf hm
    | jump ht hm => exact .jump ht (h.heads_iff_realAt?.mp hm)
    | thrown hrange hencloses hm =>
      exact .thrown hrange (h.mem_realBetween.mpr ⟨hr, (encloses_iff_covers hr).mp hencloses⟩)
        (h.heads_iff_realAt?.mp hm)

theorem reaches_iff_arrives : b.Reaches n ↔ b.Arrives n := by
  constructor
  · intro hn
    induction hn with
    | entry hfind => exact .entry (by rwa [h.find?_acts (Subset.refl _)])
    | step hn hnext ih => exact .step ih ((h.next_iff_passes hn.isReal).mp hnext)
  · intro hn
    induction hn with
    | entry hfind => exact .entry (by rwa [← h.find?_acts (Subset.refl _)])
    | step _ hpass ih => exact .step ih ((h.next_iff_passes ih.isReal).mpr hpass)

/-- The flow graph finds the instructions that control can come to. -/
theorem mem_reachable (hr : n.isReal = true) : n ∈ (FlowGraph.of b).reachable ↔ n ∈ b.nodes ∧ b.Reaches n := by
  rw [mem_reachable_iff_visits, h.reaches_iff_arrives]
  constructor
  · intro hn
    exact ⟨hn.mem, (visits_iff_arrives h.distinct (by rwa [h.acts_eq hn.mem])).mp hn⟩
  · rintro ⟨hmem, hn⟩
    exact (visits_iff_arrives h.distinct (by rwa [h.acts_eq hmem])).mpr hn

end Body.Orderly

namespace Body.WellFormed

variable {b : Body} (h : b.WellFormed)

include h

theorem realBetween_eq (hns : b.nodes = pre ++ a :: (mid ++ c :: post)) (ha : a.instr = .label start)
    (hc : c.instr = .label stop) : b.realBetween start stop = mid.filter Node.isReal :=
  h.orderly.realBetween_eq hns ha hc

theorem mem_realBetween :
    n ∈ b.realBetween start stop ↔ n.isReal = true ∧ Covers b.nodes start stop n := h.orderly.mem_realBetween

theorem labelPosition_eq_some :
    (FlowIndex.labelPositions b.nodes).lookup l = some p ↔ ∃ a : Node, b.nodes[p]? = some a ∧ a.instr = .label l :=
  FlowGraph.labelPosition_eq_some h.bound_once

/-- An instruction is covered by two labels if its position is between theirs. -/
theorem covers_iff_positions {s e : Nat} (hs : (FlowIndex.labelPositions b.nodes).lookup start = some s)
    (he : (FlowIndex.labelPositions b.nodes).lookup stop = some e) (hp : b.nodes[p]? = some n)
    (hr : n.isReal = true) : n ∈ b.realBetween start stop ↔ s ≤ p ∧ p < e := by
  rw [h.mem_realBetween, and_iff_right hr, ← encloses_iff_covers hr,
    FlowGraph.encloses_iff_positions h.orderly.distinct hs he hp]

end Body.WellFormed

end Untangle
