import Untangle.Code.FlowGraph
import Untangle.Proofs.Code.WellFormed

/-!
# What a flow graph says

The blocks found from the first one are those that some way leads to: the search has enough steps for
its frontier to run dry. The blocks themselves are cut so that they have labels only before their first
instruction and go elsewhere only after their last; only the last block can be without one.
-/

namespace Untangle

open List

variable {j steps start stop : Nat} {frontier seen : List Nat} {current front back : List Node} {hasReal ended : Bool}
  {n : Node} {block : Block} {labels : List (Label × Nat)} {b : Body}

namespace FlowGraph

variable {ns run : List Node} {g : FlowGraph} {i : Nat}

/-! ### The search -/

/-- Some way goes from one block to another. -/
def Leads (g : FlowGraph) (i j : Nat) : Prop := ∃ e ∈ g.edges, e.source = i ∧ e.target = j

/-- Control can come to the block from the first one. -/
inductive Reached (g : FlowGraph) : Nat → Prop where
  | entry : g.blocks ≠ [] → Reached g 0
  | step {i j : Nat} : Reached g i → g.Leads i j → Reached g j

theorem mem_next : j ∈ (g.edges.filter (·.source == i)).map Edge.target ↔ g.Leads i j := by
  simp [Leads, and_assoc]

/-- The search finds nothing that no way leads to. -/
theorem reach_sound {P : Nat → Prop} (hstep : ∀ i j, P i → g.Leads i j → P j) (hf : ∀ i ∈ frontier, P i)
    (hs : ∀ i ∈ seen, P i) : ∀ i ∈ g.reach steps frontier seen, P i := by
  fun_induction reach g steps frontier seen with
  | case1 => exact hs
  | case2 => exact hs
  | case3 steps i frontier seen hseen ih => exact ih (fun j hj => hf j (by simp [hj])) hs
  | case4 steps i frontier seen hseen _ ih =>
    refine ih (fun j hj => ?_) (fun j hj => ?_)
    · rcases mem_append.mp hj with hj | hj
      · exact hstep i j (hf i (by simp)) (mem_next.mp hj)
      · exact hf j (by simp [hj])
    · rcases mem_cons.mp hj with rfl | hj
      · exact hf j (by simp)
      · exact hs j hj

/-- The number of edges that leave blocks not seen yet. -/
def unseen (g : FlowGraph) (seen : List Nat) : Nat := g.edges.countP fun e => !seen.contains e.source

/-- Seeing a block settles the edges that leave it. -/
theorem unseen_cons (hi : ¬seen.contains i = true) :
    g.unseen seen = ((g.edges.filter (·.source == i)).map Edge.target).length + g.unseen (i :: seen) := by
  unfold unseen
  induction g.edges with
  | nil => rfl
  | cons e _ ih =>
    simp only [countP_cons, ih]
    by_cases he : e.source = i
    · subst he
      simp at hi
      simp [hi]
      omega
    · by_cases hm : e.source ∈ seen <;> simp [he, hm]; omega

/-- What the search finds is closed under going on, if it has a step for each entry of its frontier
and for each edge that it may still have to add to it. -/
theorem reach_closed (hsteps : frontier.length + g.unseen seen ≤ steps)
    (hseen : ∀ i ∈ seen, ∀ j, g.Leads i j → j ∈ seen ∨ j ∈ frontier) :
    (∀ i, i ∈ seen ∨ i ∈ frontier → i ∈ g.reach steps frontier seen) ∧
      ∀ i ∈ g.reach steps frontier seen, ∀ j, g.Leads i j → j ∈ g.reach steps frontier seen := by
  fun_induction reach g steps frontier seen with
  | case1 frontier seen =>
    obtain rfl : frontier = [] := length_eq_zero_iff.mp (by omega)
    exact ⟨by simp, by simpa using hseen⟩
  | case2 => exact ⟨by simp, by simpa using hseen⟩
  | case3 steps i frontier seen hi ih =>
    have hmem : i ∈ seen := by simpa using hi
    obtain ⟨hin, hclosed⟩ := ih (by simp at hsteps; omega) fun k hk j hj => by
      rcases hseen k hk j hj with h | h
      · exact .inl h
      · rcases mem_cons.mp h with rfl | h
        · exact .inl hmem
        · exact .inr h
    refine ⟨fun k hk => hin k ?_, hclosed⟩
    rcases hk with hk | hk
    · exact .inl hk
    · rcases mem_cons.mp hk with rfl | hk
      · exact .inl hmem
      · exact .inr hk
  | case4 steps i frontier seen hi next ih =>
    have hcount : g.unseen seen = next.length + g.unseen (i :: seen) := unseen_cons hi
    have hlen : (next ++ frontier).length + g.unseen (i :: seen) ≤ steps := by
      rw [length_append]
      rw [length_cons] at hsteps
      omega
    obtain ⟨hin, hclosed⟩ := ih hlen fun k hk j hj => by
      rcases mem_cons.mp hk with rfl | hk
      · exact .inr (mem_append_left _ (mem_next.mpr hj))
      · rcases hseen k hk j hj with h | h
        · exact .inl (mem_cons_of_mem _ h)
        · rcases mem_cons.mp h with rfl | h
          · exact .inl (mem_cons_self ..)
          · exact .inr (mem_append_right _ h)
    refine ⟨fun k hk => hin k ?_, hclosed⟩
    rcases hk with hk | hk
    · exact .inl (mem_cons_of_mem _ hk)
    · rcases mem_cons.mp hk with rfl | hk
      · exact .inl (mem_cons_self ..)
      · exact .inr (mem_append_right _ hk)

/-- The search finds the blocks that control can come to, and no others. -/
theorem mem_reachableBlocks : i ∈ g.reachableBlocks ↔ g.Reached i := by
  unfold reachableBlocks
  by_cases hb : g.blocks = []
  · rw [if_pos (by simp [hb])]
    refine ⟨(by simp), fun h => ?_⟩
    induction h with
    | entry hne => exact absurd hb hne
    | step _ _ ih => cases ih
  · rw [if_neg (by simpa using hb)]
    have hcount : [0].length + g.unseen [] ≤ g.edges.length + 1 := by
      have : g.unseen [] ≤ g.edges.length := countP_le_length
      rw [length_singleton]
      omega
    obtain ⟨hin, hclosed⟩ := reach_closed hcount (by simp)
    constructor
    · exact reach_sound (fun i j => .step) (by simpa using Reached.entry hb) (by simp) i
    · intro h
      induction h with
      | entry => exact hin 0 (by simp)
      | step _ hl ih => exact hclosed _ ih _ hl

/-! ### Blocks -/

/-- The node is the last of its block, if it has one after it. -/
def ends (n : Node) : Bool := n.isReal && (n.instr.isJump || !n.instr.fallsThrough)

/-- A block has labels only before its first instruction, and goes elsewhere only from its last node. -/
structure Straight (ns : List Node) : Prop where
  labels_first : ns.Pairwise fun m n => m.isReal = true → n.isLabel = false
  runs : ∀ n ∈ ns.dropLast, ends n = false

/-- Runs of nodes that are blocks, the last of which alone can be without instructions. -/
structure AreBlocks (bs : List (List Node)) : Prop where
  straight : ∀ ns ∈ bs, Straight ns
  nonempty : ∀ ns ∈ bs, ns ≠ []
  reals : ∀ ns ∈ bs.dropLast, ∃ n ∈ ns, n.isReal = true

theorem AreBlocks.cons {bs : List (List Node)} (h : AreBlocks bs) (hs : Straight ns) (hne : ns ≠ [])
    (hr : ∃ n ∈ ns, n.isReal = true) : AreBlocks (ns :: bs) where
  straight := by
    intro ms hms
    rcases mem_cons.mp hms with rfl | hms
    · exact hs
    · exact h.straight ms hms
  nonempty := by
    intro ms hms
    rcases mem_cons.mp hms with rfl | hms
    · exact hne
    · exact h.nonempty ms hms
  reals := by
    intro ms hms
    cases bs with
    | nil => simp at hms
    | cons b bs =>
      rcases mem_cons.mp hms with rfl | hms
      · exact hr
      · exact h.reals ms hms

theorem split_done (done : List (List Node)) (current : List Node) (hasReal ended : Bool) (ns : List Node) :
    split done current hasReal ended ns = done.reverse ++ split [] current hasReal ended ns := by
  induction ns generalizing done current hasReal ended with
  | nil =>
    unfold split
    split <;> simp
  | cons n _ ih =>
    unfold split
    split
    · rw [ih, ih [current.reverse]]
      simp
    · rw [ih]

/-- What holds of the block being filled, last node first. -/
structure Filling (current : List Node) (hasReal ended : Bool) : Prop where
  labels_first : current.Pairwise fun n m => m.isReal = true → n.isLabel = false
  runs : ∀ n ∈ current.tail, ends n = false
  hasReal_iff : hasReal = true ↔ ∃ n ∈ current, n.isReal = true
  ended_iff : ended = true ↔ ∃ n ∈ current.head?, ends n = true

theorem Filling.straight (h : Filling current hasReal ended) :
    Straight current.reverse where
  labels_first := List.pairwise_reverse.mpr h.labels_first
  runs := by
    simpa using h.runs

/-- Cutting loses no node, and cuts into blocks. -/
theorem split_spec (h : Filling current hasReal ended) (ns : List Node) :
    AreBlocks (split [] current hasReal ended ns) ∧
      (split [] current hasReal ended ns).flatten = current.reverse ++ ns := by
  induction ns generalizing current hasReal ended with
  | nil =>
    unfold split
    split
    · rename_i he
      rw [isEmpty_iff.mp he]
      exact ⟨⟨by simp, by simp, by simp⟩, rfl⟩
    · rename_i he
      refine ⟨⟨?_, ?_, by simp⟩, by simp⟩
      · simpa using h.straight
      · simpa using he
  | cons n _ ih =>
    unfold split
    split
    · -- a new block begins with `n`, and the one before it has an instruction
      rename_i hcut
      rw [split_done]
      have hreal : ∃ m ∈ current, m.isReal = true := by
        rcases Bool.or_eq_true_iff.mp hcut with he | he
        · obtain ⟨m, hm, he⟩ := h.ended_iff.mp he
          refine ⟨m, mem_of_mem_head? hm, ?_⟩
          exact (Bool.and_eq_true_iff.mp he).1
        · exact h.hasReal_iff.mp (Bool.and_eq_true_iff.mp he).2
      have hf : Filling [n] n.isReal (ends n) := ⟨by simp, by simp, by simp, by simp⟩
      obtain ⟨hblocks, hflat⟩ := ih hf
      refine ⟨hblocks.cons h.straight ?_ (by simpa using hreal), ?_⟩
      · obtain ⟨m, hm, -⟩ := hreal
        exact ne_nil_of_mem (mem_reverse.mpr hm)
      · rw [reverse_singleton]
        exact congrArg (current.reverse ++ ·) hflat
    · rename_i hcut
      simp only [Bool.or_eq_true, Bool.and_eq_true, not_or, Bool.not_eq_true, not_and] at hcut
      have hf : Filling (n :: current) (hasReal || n.isReal) (ends n) := by
        refine ⟨pairwise_cons.mpr ⟨fun m hm hr => ?_, h.labels_first⟩, ?_, ?_, by simp⟩
        · by_contra hl
          have := hcut.2 (by simpa using hl)
          rw [h.hasReal_iff.mpr ⟨m, hm, hr⟩] at this
          cases this
        · intro m hm
          by_contra hc
          cases current with
          | nil => cases hm
          | cons c =>
            rcases mem_cons.mp hm with rfl | hm
            · have := h.ended_iff.mpr ⟨m, by simp, by simpa using hc⟩
              rw [hcut.1] at this
              cases this
            · exact hc (h.runs m (by simpa using hm))
        · rw [Bool.or_eq_true, h.hasReal_iff]
          simp [or_comm]
      obtain ⟨hblocks, hflat⟩ := ih hf
      rw [reverse_cons, append_assoc] at hflat
      exact ⟨hblocks, hflat⟩

/-- The runs of nodes that the blocks are made of. -/
def cuts (ns : List Node) : List (List Node) := split [] [] false false ns

theorem areBlocks_cuts (ns : List Node) : AreBlocks (cuts ns) :=
  (split_spec ⟨by simp, by simp, by simp, by simp⟩ ns).1

theorem flatten_cuts (ns : List Node) : (cuts ns).flatten = ns :=
  (split_spec ⟨by simp, by simp, by simp, by simp⟩ ns).2

/-- A run of nodes around one of its blocks. -/
theorem eq_of_cuts {left right : List (List Node)} (hc : cuts ns = left ++ run :: right) :
    ns = left.flatten ++ (run ++ right.flatten) := by
  rw [← flatten_cuts ns, hc]
  simp

theorem exists_cut (hi : (cuts ns)[i]? = some run) :
    ∃ left right, cuts ns = left ++ run :: right ∧ left.length = i := by
  obtain ⟨hlen, rfl⟩ := List.getElem?_eq_some_iff.mp hi
  refine ⟨(cuts ns).take i, (cuts ns).drop (i + 1), ?_, by simp; omega⟩
  rw [← drop_eq_getElem_cons hlen, take_append_drop]

/-- What stands before another node of its block does not end the block. -/
theorem ends_eq_false (hi : (cuts ns)[i]? = some (front ++ n :: back)) (hback : back ≠ []) : ends n = false := by
  refine ((areBlocks_cuts ns).straight _ (mem_of_getElem? hi)).runs n ?_
  rw [dropLast_append_of_ne_nil (by simp), dropLast_cons_of_ne_nil hback]
  simp

/-- Only the last block can be without instructions. -/
theorem cuts_of_hollow (hi : (cuts ns)[i]? = some run) (hrun : ∀ n ∈ run, n.isReal = false) :
    ∃ left, cuts ns = left ++ [run] ∧ left.length = i := by
  obtain ⟨left, right, hc, hleft⟩ := exists_cut hi
  cases right with
  | nil => exact ⟨left, hc, hleft⟩
  | cons _ right =>
    have hblocks := areBlocks_cuts ns
    rw [hc] at hblocks
    obtain ⟨n, hn, hr⟩ := hblocks.reals run (by simp)
    simp [hrun n hn] at hr

/-- Before a block without instructions stands the last instruction. -/
theorem exists_before_hollow (hi : (cuts ns)[i + 1]? = some run) (hrun : ∀ n ∈ run, n.isReal = false) :
    ∃ front last back, (cuts ns)[i]? = some (front ++ last :: back) ∧
      last.isReal = true ∧ (∀ n ∈ back, n.isReal = false) ∧ (last.instr.fallsThrough = false → back = []) ∧
      ∃ pre, ns = pre ++ last :: (back ++ run) := by
  obtain ⟨left, hc, hleft⟩ := cuts_of_hollow hi hrun
  obtain ⟨init, run', rfl⟩ := (eq_nil_or_concat' left).resolve_left (ne_nil_of_length_eq_add_one hleft)
  have hlen : init.length = i := by simpa using hleft
  have hblocks := areBlocks_cuts ns
  rw [hc] at hblocks
  obtain ⟨front, last, back, rfl, hlast, hback⟩ := exists_last (hblocks.reals run' (by simp))
  have hcut : (cuts ns)[i]? = some (front ++ last :: back) := by
    rw [hc, ← hlen]
    simp
  refine ⟨front, last, back, hcut, hlast, hback, fun hfalls => ?_, init.flatten ++ front, ?_⟩
  · by_contra hne
    have hends := ends_eq_false hcut hne
    simp [ends, hlast, hfalls] at hends
  · rw [← flatten_cuts ns, hc]
    simp

theorem placed_done (start : Nat) (done : List Block) (bs : List (List Node)) :
    placed start done bs = done.reverse ++ placed start [] bs := by
  induction bs generalizing start done with
  | nil => simp [placed]
  | cons _ bs ih =>
    unfold placed
    rw [ih, ih _ [_]]
    simp

/-- A block starts where those before it end. -/
theorem getElem?_placed (start : Nat) (bs : List (List Node)) (i : Nat) :
    (placed start [] bs)[i]? = bs[i]?.map fun ns => ⟨ns, start + (bs.take i).flatten.length⟩ := by
  induction bs generalizing start i with
  | nil => simp [placed]
  | cons ns bs ih =>
    unfold placed
    rw [placed_done]
    cases i with
    | zero => simp
    | succ i =>
      rw [reverse_singleton, singleton_append, getElem?_cons_succ, ih]
      simp [Nat.add_assoc]

theorem getElem?_blocksOf (ns : List Node) (i : Nat) :
    (blocksOf ns)[i]? = (cuts ns)[i]?.map fun run => ⟨run, ((cuts ns).take i).flatten.length⟩ := by
  rw [blocksOf, getElem?_placed]
  simp [cuts]

theorem map_nodes_blocksOf (ns : List Node) : (blocksOf ns).map Block.nodes = cuts ns := by
  apply ext_getElem?
  intro i
  rw [getElem?_map, getElem?_blocksOf]
  simp [Function.comp_def]

end FlowGraph

/-- Holds an instruction. A node that was removed holds none. -/
def Node.acts (n : Node) : Bool := n.live && n.isReal

theorem Node.acts_of_live (h : n.live = true) : n.acts = n.isReal := by simp [acts, h]

theorem Node.isReal_of_acts (h : n.acts = true) : n.isReal = true := (Bool.and_eq_true_iff.mp h).2

namespace Block

/-- The last instruction of a run of nodes. -/
theorem lastReal?_append (start : Nat) (hn : n.acts = true) (hback : ∀ m ∈ back, m.acts = false) :
    lastReal? ⟨front ++ n :: back, start⟩ = some n.instr := by
  have hnone : back.reverse.find? Node.acts = none := by simpa using hback
  change ((front ++ n :: back).reverse.find? Node.acts).map Node.instr = some n.instr
  simp [hnone, hn]

theorem lastReal?_eq_none (start : Nat) (hns : ∀ n ∈ ns, n.acts = false) : lastReal? ⟨ns, start⟩ = none := by
  have hnone : ns.reverse.find? Node.acts = none := by simpa using hns
  change (ns.reverse.find? Node.acts).map Node.instr = none
  rw [hnone, Option.map_none]

/-- A block meets a stretch of positions if one of its instructions stands there. -/
theorem meets_iff :
    block.meets start stop = true ↔ ∃ k n, block.nodes[k]? = some n ∧ start ≤ block.start + k ∧
      block.start + k < stop ∧ n.acts = true := by
  unfold meets
  simp only [any_eq_true, Prod.exists, mem_zipIdx_iff_le_and_getElem?_sub, Bool.and_eq_true,
    decide_eq_true_eq, Node.acts]
  constructor
  · rintro ⟨n, p, ⟨hle, hn⟩, ⟨⟨hs, he⟩, hl⟩, hr⟩
    exact ⟨p - block.start, n, hn, by omega, by omega, hl, hr⟩
  · rintro ⟨k, n, hn, hs, he, hl, hr⟩
    exact ⟨n, block.start + k, ⟨by omega, by rwa [Nat.add_sub_cancel_left]⟩, ⟨⟨hs, he⟩, hl⟩, hr⟩

end Block

namespace FlowGraph

/-! ### Edges -/

theorem mem_labelBlocks {blocks : List Block} {t : Label} :
    (t, j) ∈ labelBlocks blocks ↔ ∃ b, blocks[j]? = some b ∧ t ∈ labelsOf b.nodes := by
  simp only [labelBlocks, mem_flatMap, Prod.exists, mem_zipIdx_iff_getElem?, mem_map, Prod.mk.injEq]
  constructor
  · rintro ⟨b, i, hb, l, hl, rfl, rfl⟩
    exact ⟨b, hb, hl⟩
  · rintro ⟨b, hb, hl⟩
    exact ⟨b, j, hb, t, hl, rfl, rfl⟩

/-- The ways out of a block at its end. -/
theorem mem_exits {count : Nat} {e : Edge} :
    e ∈ exits count labels block i ↔
      (block.fallsThrough = true ∧ i + 1 < count ∧ e = ⟨i, i + 1, .fallThrough⟩) ∨
        ∃ t ∈ block.targets, ∃ j, labels.lookup t = some j ∧ e = ⟨i, j, .jump⟩ := by
  unfold exits
  rw [mem_append]
  refine or_congr ?_ ?_
  · split
    · rename_i h
      simp only [Bool.and_eq_true, decide_eq_true_eq] at h
      simp [h]
    · rename_i h
      simp only [Bool.and_eq_true, decide_eq_true_eq, not_and] at h
      simp only [not_mem_nil, false_iff, not_and]
      exact fun hf hi => absurd hi (h hf)
  · simp [@eq_comm _ e]

theorem mem_placedRanges {handler : Nat} :
    (start, stop, handler) ∈ placedRanges b labels ↔
      ∃ r ∈ b.ranges, (FlowIndex.labelPositions b.nodes).lookup r.start = some start ∧
        (FlowIndex.labelPositions b.nodes).lookup r.stop = some stop ∧ labels.lookup r.handler = some handler := by
  simp only [placedRanges, mem_filterMap, Option.bind_eq_bind, Option.bind_eq_some_iff, Option.pure_def,
    Option.some.injEq, Prod.mk.injEq]
  constructor
  · rintro ⟨r, hr, s, hs, e, he, h, hh, rfl, rfl, rfl⟩
    exact ⟨r, hr, hs, he, hh⟩
  · rintro ⟨r, hr, hs, he, hh⟩
    exact ⟨r, hr, start, hs, stop, he, handler, hh, rfl, rfl, rfl⟩

/-- Where control can go from a block: to the next one, to the targets of its last instruction, or to
the handlers of the ranges that cover one of its instructions. -/
theorem leads_of :
    (of b).Leads i j ↔ ∃ block, (blocksOf b.nodes)[i]? = some block ∧
      ((block.fallsThrough = true ∧ i + 1 < (blocksOf b.nodes).length ∧ j = i + 1) ∨
        (∃ t ∈ block.targets, (labelBlocks (blocksOf b.nodes)).lookup t = some j) ∨
        ∃ r ∈ b.ranges, ∃ start stop, (FlowIndex.labelPositions b.nodes).lookup r.start = some start ∧
          (FlowIndex.labelPositions b.nodes).lookup r.stop = some stop ∧
          (labelBlocks (blocksOf b.nodes)).lookup r.handler = some j ∧ block.meets start stop = true) := by
  unfold Leads of
  simp only [mem_append, mem_flatMap, Prod.exists, mem_zipIdx_iff_getElem?, mem_exits,
    mem_placedRanges, mem_filterMap, Option.ite_none_right_eq_some, Option.some.injEq]
  constructor
  · rintro ⟨e, ⟨block, k, hb, hexit⟩ | ⟨start, stop, handler, ⟨r, hr, hs, he, hh⟩, block, k, hb, hm, rfl⟩, rfl, rfl⟩
    · rcases hexit with ⟨hf, hk, rfl⟩ | ⟨t, ht, j, hj, rfl⟩
      · exact ⟨block, hb, .inl ⟨hf, hk, rfl⟩⟩
      · exact ⟨block, hb, .inr (.inl ⟨t, ht, hj⟩)⟩
    · exact ⟨block, hb, .inr (.inr ⟨r, hr, start, stop, hs, he, hh, hm⟩)⟩
  · rintro ⟨block, hb, ⟨hf, hi, rfl⟩ | ⟨t, ht, hj⟩ | ⟨r, hr, start, stop, hs, he, hh, hm⟩⟩
    · exact ⟨_, .inl ⟨block, i, hb, .inl ⟨hf, hi, rfl⟩⟩, rfl, rfl⟩
    · exact ⟨_, .inl ⟨block, i, hb, .inr ⟨t, ht, j, hj, rfl⟩⟩, rfl, rfl⟩
    · exact ⟨_, .inr ⟨start, stop, j, ⟨r, hr, hs, he, hh⟩, block, i, hb, hm, rfl⟩, rfl, rfl⟩

end FlowGraph

end Untangle
