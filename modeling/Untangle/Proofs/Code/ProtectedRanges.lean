import Untangle.Proofs.Code.Reachability
import Untangle.Proofs.Code.StaleHandles

/-!
# Three views of a protected range

What a range protects is found in three ways: by a walk from its first label to its last (`Body.realBetween`), by the
positions of its labels (`FlowIndex`), and block by block (`FlowGraph`). Positions and blocks always agree. The walk
agrees with them unless a node that was removed is linked inside the range: there it gives up, and finds nothing.
-/

namespace Untangle

open Strand List FlowGraph

variable {b : Body} {r : Range} {start stop : Label} {s e j : Nat}

/-- The nodes from one position up to another. -/
def Body.span (b : Body) (s e : Nat) : List Node := (b.nodes.take e).drop s

theorem Body.mem_span {n : Node} : n ∈ b.span s e ↔ ∃ p, b.nodes[p]? = some n ∧ s ≤ p ∧ p < e := by
  rw [span, mem_iff_getElem?]
  simp only [getElem?_drop, getElem?_take]
  constructor
  · rintro ⟨k, hk⟩
    split at hk
    · exact ⟨s + k, hk, by omega, by omega⟩
    · cases hk
  · rintro ⟨p, hp, hsp, hpe⟩
    exact ⟨p - s, by rwa [Nat.add_sub_cancel' hsp, if_pos hpe]⟩

/-- The edges that a range adds to the graph of a body. -/
def FlowGraph.addedBy (b : Body) (r : Range) : List Edge :=
  (of { b with ranges := [r] }).edges.drop (of { b with ranges := [] }).edges.length

/-- The numbers of the blocks that hold one of some nodes. -/
def FlowGraph.holders (g : FlowGraph) (ns : List Node) : List Nat :=
  g.blocks.zipIdx.filterMap fun p => if p.1.nodes.any ns.contains then some p.2 else none

/-- What a body shows of a range, whose labels have the positions `s`, `e` and `t` and whose handler is in block `j`. -/
structure Body.Views (b : Body) (r : Range) (s e t j : Nat) : Prop where
  start : (FlowIndex.of b).labelPosition? r.start = some s
  stop : (FlowIndex.of b).labelPosition? r.stop = some e
  handler : (FlowIndex.of b).labelPosition? r.handler = some t
  walked : b.realBetween r.start r.stop =
    if (b.span s e).all Node.live then (b.span s e).filter Node.acts else []
  indexed : ⟨s, e, t, r.catchType⟩ ∈ (FlowIndex.of b).ranges
  guarded : ∀ p, s ≤ p → p < e → (FlowIndex.of b).isProtected p = true
  block : ∃ block, (FlowGraph.of b).blocks[j]? = some block ∧ r.handler ∈ block.labels
  added : FlowGraph.addedBy b r =
    ((FlowGraph.of b).holders ((b.span s e).filter Node.acts)).map (⟨·, j, .exception⟩)

/-! ### Walking -/

/-- A label that is read is found where it is read, if no strand binds it again. -/
theorem Listing.labelPlace?_of_read {l : Listing} (h : (labelsOf (nodesOf l.strands)).Nodup) {pre post : List Node}
    {a : Node} {name : Label} (hns : l.nodes = pre ++ a :: post) (ha : a.instr = .label name) :
    l.labelPlace? name = some ⟨pre.reverse, a, post⟩ := by
  cases hs : l.strands.find? (·.isHead) with
  | none => simp [nodes_eq_getD, hs] at hns
  | some s =>
    have hread : s.nodes = pre ++ a :: post := by
      rw [← hns, nodes_eq_getD, hs]
      rfl
    obtain ⟨front, _, hsplit⟩ := append_of_mem (mem_of_find?_eq_some hs)
    rw [hsplit, nodesOf_append, nodesOf_cons, hread, append_assoc, ← append_assoc, cons_append,
      labelsOf_append, labelsOf_cons, ha] at h
    have hother : ∀ n ∈ nodesOf front ++ pre, (n.content == some (.label name)) = false := by
      intro n hn
      by_contra hc
      have hl : name ∈ labelsOf (nodesOf front ++ pre) :=
        mem_labelsOf.mpr ⟨n, hn, Node.instr_of_content (by simpa using hc)⟩
      exact disjoint_of_nodup_append h hl (by simp [Instruction.label?])
    have hfront : front.findSome? (fun s => Place.find (·.content == some (.label name)) [] s.nodes) = none := by
      rw [findSome?_eq_none_iff]
      intro t ht
      exact Place.find_eq_none.mpr fun n hn => hother n (mem_append_left _ (mem_nodesOf.mpr ⟨t, ht, hn⟩))
    have hcontent : a.content = some (.label name) := by
      cases hc : a.content <;> simp [Node.instr, hc] at ha ⊢
      exact ha
    rw [labelPlace?, place?, hsplit, findSome?_append, hfront, Option.none_or, findSome?_cons, hread,
      Place.find_append (by simp [hcontent]) fun n hn => hother n (mem_append_right _ hn)]

namespace Body

variable (h : Distinct (nodesOf b.code.strands)) (hs : (FlowIndex.labelPositions b.nodes).lookup start = some s)

include h

theorem distinct_of_strands : Distinct b.nodes := by
  refine h.sublist ?_
  rw [nodes, Listing.nodes_eq_getD]
  cases hs : b.code.strands.find? (·.isHead) with
  | none => simp
  | some s => exact sublist_flatten_of_mem (mem_map_of_mem (mem_of_find?_eq_some hs))

include hs

/-- The place of a label is the one that its position says. -/
theorem labelPlace?_of_position :
    ∃ a : Node, b.nodes[s]? = some a ∧ b.nodes.drop s = a :: b.nodes.drop (s + 1) ∧
      b.code.labelPlace? start = some ⟨(b.nodes.take s).reverse, a, b.nodes.drop (s + 1)⟩ := by
  obtain ⟨a, ha, hla⟩ := (labelPosition_eq_some (distinct_of_strands h).labels).mp hs
  obtain ⟨hlen, rfl⟩ := List.getElem?_eq_some_iff.mp ha
  have hdrop := drop_eq_getElem_cons hlen
  refine ⟨_, ha, hdrop, Listing.labelPlace?_of_read h.labels ?_ hla⟩
  rw [← hdrop, take_append_drop]
  rfl

/-- The walk gives the instructions at the positions between the labels, unless a removed node stands there. -/
theorem realBetween_eq_span (he : (FlowIndex.labelPositions b.nodes).lookup stop = some e) :
    b.realBetween start stop = if (b.span s e).all Node.live then (b.span s e).filter Node.acts else [] := by
  obtain ⟨a, -, hda, ha⟩ := labelPlace?_of_position h hs
  obtain ⟨c, hec, hdc, hc⟩ := labelPlace?_of_position h he
  have hwalk : b.realBetween start stop = realUpTo c.id [] (b.nodes.drop s) := by
    rw [realBetween, Listing.labelNode?, hc, Listing.fromLabel, ha, hda]
    rfl
  have hids := (distinct_of_strands h).ids
  have hbefore : ∀ n ∈ b.nodes.take e, n.id ≠ c.id := by
    rw [← take_append_drop e b.nodes, hdc] at hids
    exact id_not_mem_of_nodup hids
  rw [hwalk, span]
  by_cases hle : s ≤ e
  · have hsplit : b.nodes.drop s = (b.nodes.take e).drop s ++ c :: b.nodes.drop (e + 1) := by
      have hlen := (List.getElem?_eq_some_iff.mp hec).1
      rw [← hdc]
      conv_lhs => rw [← take_append_drop e b.nodes, drop_append_of_le_length (by simp; omega)]
    rw [hsplit, realUpTo_append rfl fun n hn => hbefore n (mem_of_mem_drop hn)]
    rfl
  · -- the walk starts behind the node where it should stop
    have hlt : e < s := by omega
    have hc : c ∈ b.nodes.take s := mem_of_getElem? ((getElem?_take_of_lt hlt).trans hec)
    rw [← take_append_drop s b.nodes, map_append, nodup_append] at hids
    rw [realUpTo_eq_nil fun n hn he => hids.2.2 _ (mem_map_of_mem hc) _ (mem_map_of_mem hn) he.symm,
      drop_eq_nil_of_le (by simp; omega)]
    rfl

end Body

/-! ### Positions and blocks -/

namespace FlowGraph

/-- The ways from the blocks that meet a placed range to its handler. -/
def ways (blocks : List Block) (p : Nat × Nat × Nat) : List Edge :=
  blocks.zipIdx.filterMap fun q => if q.1.meets p.1 p.2.1 then some ⟨q.2, p.2.2, .exception⟩ else none

theorem edges_of (b : Body) : (of b).edges = (of { b with ranges := [] }).edges ++
    (placedRanges b (labelBlocks (blocksOf b.nodes))).flatMap (ways (blocksOf b.nodes)) := by
  rw [show (of { b with ranges := [] }).edges = _ from append_nil _]
  rfl

theorem addedBy_eq (b : Body) (r : Range) : addedBy b r =
    (placedRanges { b with ranges := [r] } (labelBlocks (blocksOf b.nodes))).flatMap (ways (blocksOf b.nodes)) := by
  rw [addedBy, edges_of { b with ranges := [r] }]
  exact drop_left

/-- Each range adds its own edges. -/
theorem edges_eq (b : Body) : (of b).edges = (of { b with ranges := [] }).edges ++ b.ranges.flatMap (addedBy b) := by
  rw [edges_of, funext (addedBy_eq b)]
  simp only [placedRanges, filterMap_eq_flatMap_toList, flatMap_assoc, flatMap_singleton]
  rfl

/-- A range adds a way from each block with one of its instructions to its handler's block. -/
theorem addedBy_of_positions (h : Distinct b.nodes) (hs : (FlowIndex.labelPositions b.nodes).lookup r.start = some s)
    (he : (FlowIndex.labelPositions b.nodes).lookup r.stop = some e)
    (hj : (labelBlocks (blocksOf b.nodes)).lookup r.handler = some j) : addedBy b r =
      ((of b).holders ((b.span s e).filter Node.acts)).map (⟨·, j, .exception⟩) := by
  have hplaced : placedRanges { b with ranges := [r] } (labelBlocks (blocksOf b.nodes)) = [(s, e, j)] := by
    have hnodes : ({ b with ranges := [r] } : Body).nodes = b.nodes := rfl
    simp [placedRanges, hnodes, hs, he, hj]
  have hmeets : ∀ p ∈ (blocksOf b.nodes).zipIdx, p.1.meets s e =
      p.1.nodes.any ((b.span s e).filter Node.acts).contains := by
    intro p hp
    have hblock := mem_zipIdx_iff_getElem?.mp hp
    rw [getElem?_blocksOf, Option.map_eq_some_iff] at hblock
    obtain ⟨_, hi, hrun⟩ := hblock
    rw [← hrun, Bool.eq_iff_iff, meets_iff_position h hi]
    simp [Body.mem_span, and_comm]
  rw [addedBy_eq, hplaced, flatMap_singleton, holders, map_filterMap]
  refine filterMap_congr fun p hp => ?_
  rw [← hmeets p hp]
  split <;> rfl

end FlowGraph

/-- A range shows in the three ways if its labels are read. Positions and blocks agree on it, and so does the walk, if
no node of the range was removed; each range adds ways of its own to the graph. -/
theorem Body.range_views {b : Body} (h : Distinct (nodesOf b.code.strands)) :
    (FlowGraph.of b).edges = (FlowGraph.of { b with ranges := [] }).edges ++ b.ranges.flatMap (FlowGraph.addedBy b) ∧
      ∀ r ∈ b.ranges, (∀ l ∈ [r.start, r.stop, r.handler], l ∈ labelsOf b.nodes) ↔ ∃ s e t j, b.Views r s e t j := by
  have hd := distinct_of_strands h
  have hread : ∀ {l}, l ∈ labelsOf b.nodes ↔ _ := mem_labelsOf_iff_position hd.labels
  refine ⟨edges_eq b, fun r hr => ⟨fun hbound => ?_, ?_⟩⟩
  · obtain ⟨s, hs⟩ := hread.mp (hbound r.start (by simp))
    obtain ⟨e, he⟩ := hread.mp (hbound r.stop (by simp))
    obtain ⟨t, ht⟩ := hread.mp (hbound r.handler (by simp))
    obtain ⟨j, _, hj, hrun, hl⟩ := exists_labelBlock hd.labels (hbound r.handler (by simp))
    have hindexed : ⟨s, e, t, r.catchType⟩ ∈ (FlowIndex.of b).ranges :=
      mem_filterMap.mpr ⟨r, hr, by simp [hs, he, ht]⟩
    exact ⟨s, e, t, j, hs, he, ht, realBetween_eq_span h hs he, hindexed,
      fun p hsp hpe => any_eq_true.mpr ⟨_, hindexed, by simp [hsp, hpe]⟩,
      ⟨_, (getElem?_blocksOf b.nodes j).trans (congrArg _ hrun), hl⟩,
      addedBy_of_positions hd hs he hj⟩
  · rintro ⟨s, e, t, j, hviews⟩
    simpa using ⟨hread.mpr ⟨s, hviews.start⟩, hread.mpr ⟨e, hviews.stop⟩, hread.mpr ⟨t, hviews.handler⟩⟩

theorem looseBody_range_views : Distinct (nodesOf looseBody.code.strands) ∧
    ∃ s e t j, looseBody.Views ⟨0, 1, 2, some "E"⟩ s e t j := by
  have h : Distinct (nodesOf looseBody.code.strands) := ⟨by decide, by decide⟩
  exact ⟨h, ((Body.range_views h).2 _ (by decide)).mp (by decide)⟩

/-- A range inside which a removed node was linked again. -/
def relinkedRange : Body where
  maxStack := 1
  maxLocals := 0
  code :=
    let l := ((Listing.ofInstrs [.push .null]).remove 0).2
    let l := ((l.insertBefore 0 (.label 0)).2.insertAfter 0 (.label 1)).2
    let l := ((l.insertAfter 1 (.push (.int 7))).2.insertAfter 2 (.label 2)).2
    (l.insertAfter 4 .raise).2
  ranges := [⟨0, 1, 2, none⟩]

/-- The instruction in the range is protected by its position and has a way to the handler, but the walk does not find
it. -/
theorem relinkedRange_views : Distinct (nodesOf relinkedRange.code.strands) ∧
    (relinkedRange.span 0 3).filter Node.acts = [⟨3, some (.push (.int 7))⟩] ∧
    (FlowIndex.of relinkedRange).ranges = [⟨0, 3, 4, none⟩] ∧ (FlowIndex.of relinkedRange).isProtected 1 = true ∧
    FlowGraph.addedBy relinkedRange ⟨0, 1, 2, none⟩ = [⟨0, 1, .exception⟩] ∧ relinkedRange.realBetween 0 1 = [] :=
  ⟨⟨by decide, by decide⟩, by decide +kernel⟩

end Untangle
