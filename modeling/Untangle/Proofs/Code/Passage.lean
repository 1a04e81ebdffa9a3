import Untangle.Proofs.Code.FlowGraph

/-!
# Ways of control, instruction by instruction

Control goes from an instruction to the next one if it falls through, to the first instruction behind each label
that it names, and to the first instruction behind the handler of each range around it. The flow graph goes block
by block instead, and finds the same instructions.

Nothing is asked of a body but that its nodes have numbers of their own and that no label is bound twice. What is
referred to may be missing, ranges may be empty or the wrong way round, code may end anywhere, and nodes that were
removed may still be linked. A removed node is no instruction, but a block can consist of such nodes only. So where
control goes on at a block is told by the first instruction from that block on (`onward`), in whatever block it is.
-/

namespace Untangle

open List Block

variable {ns front back : List Node} {x m n : Node} {l start stop : Label} {j i : Nat} {p s e : Nat}
  {stays : Node → Bool}

/-- `m` is the first instruction behind `x` in a run of nodes. -/
def Ensues (ns : List Node) (x m : Node) : Prop := ∃ pre post, ns = pre ++ x :: post ∧ post.find? Node.acts = some m

/-- `m` is the first instruction behind a label of a run of nodes. -/
def Heads (ns : List Node) (l : Label) (m : Node) : Prop := ∃ a : Node, a.instr = .label l ∧ Ensues ns a m

/-- The position of `n` is that of the label `start` or a later one, and comes before that of the label `stop`. -/
def Encloses (ns : List Node) (start stop : Label) (n : Node) : Prop :=
  ∃ s e p : Nat, ∃ a c : Node, ns[s]? = some a ∧ a.instr = .label start ∧ ns[e]? = some c ∧ c.instr = .label stop ∧
    ns[p]? = some n ∧ s ≤ p ∧ p < e

/-- A node that stands between two labels of a run. -/
def Covers (ns : List Node) (start stop : Label) (n : Node) : Prop :=
  ∃ a c : Node, a.instr = .label start ∧ c.instr = .label stop ∧ [a, n, c].Sublist ns

namespace Body

/-- Control can go from one instruction to another in one step. -/
inductive Passes (b : Body) (n : Node) : Node → Prop where
  /-- To the next one. -/
  | fall {m : Node} : n.instr.fallsThrough = true → Ensues b.nodes n m → Passes b n m
  /-- To where a label leads that the instruction names. -/
  | jump {t : Label} {m : Node} : t ∈ n.instr.targets → Heads b.nodes t m → Passes b n m
  /-- To the handler of a range that the instruction stands in. -/
  | thrown {r : Range} {m : Node} : r ∈ b.ranges → Encloses b.nodes r.start r.stop n → Heads b.nodes r.handler m →
      Passes b n m

/-- Control can come to an instruction from the first one. -/
inductive Arrives (b : Body) : Node → Prop where
  | entry {n : Node} : b.nodes.find? Node.acts = some n → Arrives b n
  | step {n m : Node} : Arrives b n → Passes b n m → Arrives b m

/-- Control can come to the block of a node. -/
def Visits (b : Body) (n : Node) : Prop :=
  ∃ i run, (FlowGraph.cuts b.nodes)[i]? = some run ∧ n ∈ run ∧ (FlowGraph.of b).Reached i

end Body

theorem Ensues.mem (h : Ensues ns x m) : x ∈ ns := by
  obtain ⟨_, _, rfl, -⟩ := h
  simp

/-- What is found first is found first among the nodes that stay, if it stays. -/
theorem find?_filter {test : Node → Bool} (hm : ns.find? test = some m) (hstays : stays m = true) :
    (ns.filter stays).find? test = some m := by
  obtain ⟨hr, front, _, rfl, hfront⟩ := find?_eq_some_iff_append.mp hm
  have hnone : (front.filter stays).find? test = none :=
    find?_eq_none.mpr fun n hn => by simpa using hfront n (mem_filter.mp hn).1
  rw [filter_append, filter_cons_of_pos hstays, find?_append, hnone]
  simp [hr]

theorem Ensues.filter (h : Ensues ns x m) (hx : stays x = true) (hm : stays m = true) :
    Ensues (ns.filter stays) x m := by
  obtain ⟨pre, post, rfl, hfind⟩ := h
  refine ⟨pre.filter stays, post.filter stays, ?_, find?_filter hfind hm⟩
  rw [filter_append, filter_cons_of_pos hx]

/-- An instruction stands between two labels if its position is between theirs. -/
theorem encloses_iff_covers (hr : n.isReal = true) : Encloses ns start stop n ↔ Covers ns start stop n := by
  constructor
  · rintro ⟨s, e, p, a, c, ha, hla, hc, hlc, hp, hsp, hpe⟩
    refine ⟨a, c, hla, hlc, ?_⟩
    obtain ⟨hslen, rfl⟩ := List.getElem?_eq_some_iff.mp ha
    obtain ⟨hplen, rfl⟩ := List.getElem?_eq_some_iff.mp hp
    obtain ⟨helen, rfl⟩ := List.getElem?_eq_some_iff.mp hc
    have hne : s ≠ p := by
      rintro rfl
      simp [Node.isReal, hla, Instruction.isReal] at hr
    have hlt : [(⟨s, hslen⟩ : Fin ns.length), ⟨p, hplen⟩, ⟨e, helen⟩].Pairwise (· < ·) := by
      simp
      omega
    simpa using map_getElem_sublist hlt
  · rintro ⟨a, c, hla, hlc, hsub⟩
    obtain ⟨is, his, hlt⟩ := sublist_eq_map_getElem hsub
    obtain ⟨i, j, k, rfl⟩ := length_eq_three.mp (show is.length = 3 by simpa using congrArg length his.symm)
    obtain ⟨rfl, rfl, rfl⟩ := his
    simp only [pairwise_cons, mem_cons, forall_eq_or_imp] at hlt
    exact ⟨i, k, j, _, _, by simp, hla, by simp, hlc, by simp, by omega, by omega⟩

/-! ### Positions and blocks of labels -/

/-- With one entry for each key, looking up is finding the entry. -/
theorem lookup_eq_some_of_nodup {β : Type} {entries : List (Label × β)} (h : (entries.map Prod.fst).Nodup) {v : β} :
    entries.lookup l = some v ↔ (l, v) ∈ entries := by
  induction entries with
  | nil => simp
  | cons e es ih =>
    obtain ⟨k, w⟩ := e
    rw [map_cons, nodup_cons] at h
    rw [lookup_cons]
    by_cases hk : l = k
    · subst hk
      have hno : (l, v) ∉ es := fun hm => h.1 (mem_map.mpr ⟨_, hm, rfl⟩)
      simp [hno, eq_comm]
    · have hbeq : (l == k) = false := by simpa using hk
      simp [hbeq, hk, ih h.2]

theorem map_fst_labelPositions (ns : List Node) : (FlowIndex.labelPositions ns).map Prod.fst = labelsOf ns := by
  unfold FlowIndex.labelPositions labelsOf
  rw [map_filterMap]
  conv_rhs => rw [← zipIdx_map_fst 0 ns, filterMap_map]
  congr 1
  funext p
  cases h : p.1.instr.label? <;> simp [h]

theorem FlowGraph.map_fst_labelBlocks (ns : List Node) : (labelBlocks (blocksOf ns)).map Prod.fst = labelsOf ns := by
  have hb : ∀ blocks : List Block, (labelBlocks blocks).map Prod.fst = labelsOf (blocks.map nodes).flatten := by
    intro blocks
    unfold labelBlocks
    rw [labelsOf, filterMap_flatten, map_map]
    conv_rhs => rw [← zipIdx_map_fst 0 blocks, map_map]
    rw [flatMap_def]
    simp [labels, Function.comp_def]
  rw [hb, map_nodes_blocksOf, flatten_cuts]

namespace FlowGraph

variable {run : List Node}

theorem labelPosition_eq_some (h : (labelsOf ns).Nodup) :
    (FlowIndex.labelPositions ns).lookup l = some p ↔ ∃ a : Node, ns[p]? = some a ∧ a.instr = .label l := by
  rw [lookup_eq_some_of_nodup (by rwa [map_fst_labelPositions])]
  simp only [FlowIndex.labelPositions, mem_filterMap, Prod.exists, mem_zipIdx_iff_getElem?,
    Option.map_eq_some_iff, Prod.mk.injEq]
  constructor
  · rintro ⟨a, q, ha, _, hl, rfl, rfl⟩
    exact ⟨a, ha, Instruction.label?_eq_some.mp hl⟩
  · rintro ⟨a, ha, hl⟩
    exact ⟨a, p, ha, l, Instruction.label?_eq_some.mpr hl, rfl, rfl⟩

theorem mem_labelsOf_iff_position (h : (labelsOf ns).Nodup) :
    l ∈ labelsOf ns ↔ ∃ p, (FlowIndex.labelPositions ns).lookup l = some p := by
  simp only [labelPosition_eq_some h, mem_labelsOf]
  constructor
  · rintro ⟨a, ha, hla⟩
    obtain ⟨p, hp⟩ := getElem?_of_mem ha
    exact ⟨p, a, hp, hla⟩
  · rintro ⟨p, a, hp, hla⟩
    exact ⟨a, mem_of_getElem? hp, hla⟩

theorem encloses_iff_positions (h : Distinct ns) (hs : (FlowIndex.labelPositions ns).lookup start = some s)
    (he : (FlowIndex.labelPositions ns).lookup stop = some e) (hp : ns[p]? = some n) :
    Encloses ns start stop n ↔ s ≤ p ∧ p < e := by
  constructor
  · rintro ⟨s', e', p', a, c, ha, hla, hc, hlc, hp', hsp, hpe⟩
    have hs' : s = s' := Option.some.inj (hs.symm.trans ((labelPosition_eq_some h.labels).mpr ⟨a, ha, hla⟩))
    have he' : e = e' := Option.some.inj (he.symm.trans ((labelPosition_eq_some h.labels).mpr ⟨c, hc, hlc⟩))
    have hp'' : p = p' := by
      obtain ⟨hlen, hp⟩ := List.getElem?_eq_some_iff.mp hp
      obtain ⟨hlen', hp'⟩ := List.getElem?_eq_some_iff.mp hp'
      exact (h.nodup.getElem_inj_iff).mp (hp.trans hp'.symm)
    omega
  · rintro ⟨hsp, hpe⟩
    obtain ⟨a, ha, hla⟩ := (labelPosition_eq_some h.labels).mp hs
    obtain ⟨c, hc, hlc⟩ := (labelPosition_eq_some h.labels).mp he
    exact ⟨s, e, p, a, c, ha, hla, hc, hlc, hp, hsp, hpe⟩

theorem labelBlock_eq_some (h : (labelsOf ns).Nodup) :
    (labelBlocks (blocksOf ns)).lookup l = some j ↔ ∃ run, (cuts ns)[j]? = some run ∧ l ∈ labelsOf run := by
  rw [lookup_eq_some_of_nodup (by rwa [map_fst_labelBlocks]), mem_labelBlocks]
  simp only [getElem?_blocksOf, Option.map_eq_some_iff]
  constructor
  · rintro ⟨_, ⟨run, hrun, rfl⟩, hl⟩
    exact ⟨run, hrun, hl⟩
  · rintro ⟨run, hrun, hl⟩
    exact ⟨_, ⟨run, hrun, rfl⟩, hl⟩

/-! ### From a block on -/

/-- The first instruction from a block on. -/
def onward (ns : List Node) (i : Nat) : Option Node := ((cuts ns).drop i).flatten.find? Node.acts

theorem onward_zero (ns : List Node) : onward ns 0 = ns.find? Node.acts := by
  rw [onward, drop_zero, flatten_cuts]

theorem onward_eq (hi : (cuts ns)[i]? = some run) : onward ns i = (run.find? Node.acts).or (onward ns (i + 1)) := by
  obtain ⟨hlen, rfl⟩ := List.getElem?_eq_some_iff.mp hi
  rw [onward, drop_eq_getElem_cons hlen, flatten_cons, find?_append, onward]

theorem lt_length_of_onward (hm : onward ns i = some m) : i < (cuts ns).length := by
  by_contra hge
  rw [onward, drop_eq_nil_of_le (by omega)] at hm
  cases hm

/-- What follows a block of a run. -/
theorem onward_of_cuts {left right : List (List Node)} (hc : cuts ns = left ++ run :: right) :
    onward ns (left.length + 1) = right.flatten.find? Node.acts := by
  rw [onward, hc, drop_length_add_append, drop_succ_cons, drop_zero]

/-- Behind an instruction of a block comes the next one of the block, or what comes from the next block on. -/
theorem ensues_iff (h : Distinct ns) (hi : (cuts ns)[i]? = some (front ++ n :: back)) :
    Ensues ns n m ↔ (back.find? Node.acts).or (onward ns (i + 1)) = some m := by
  obtain ⟨left, right, hc, rfl⟩ := exists_cut hi
  have hns : ns = (left.flatten ++ front) ++ n :: (back ++ right.flatten) := by
    rw [eq_of_cuts hc]
    simp
  rw [onward_of_cuts hc, ← find?_append]
  constructor
  · rintro ⟨_, _, hns', hm⟩
    obtain ⟨-, rfl⟩ := h.split_node hns hns'
    exact hm
  · exact fun hm => ⟨_, _, hns, hm⟩

/-- A label leads to the first instruction from its block on: in its block nothing acts before it. -/
theorem heads_iff (h : Distinct ns) (hj : (cuts ns)[j]? = some run) (hl : l ∈ labelsOf run) :
    Heads ns l m ↔ onward ns j = some m := by
  obtain ⟨left, right, hc, rfl⟩ := exists_cut hj
  obtain ⟨front, a, back, rfl, hlabel⟩ := exists_of_mem_labelsOf hl
  have hns : ns = (left.flatten ++ front) ++ a :: (back ++ right.flatten) := by
    rw [eq_of_cuts hc]
    simp
  have hfront : front.find? Node.acts = none := by
    rw [find?_eq_none]
    intro n hn hacts
    have hfirst := ((areBlocks_cuts ns).straight _ (mem_of_getElem? hj)).labels_first
    have := (pairwise_append.mp hfirst).2.2 n hn a (by simp) (Node.isReal_of_acts hacts)
    simp [Node.isLabel, hlabel, Instruction.label?] at this
  have ha : a.acts = false := by simp [Node.acts, Node.isReal, hlabel, Instruction.isReal]
  rw [onward_eq hj, onward_of_cuts hc, find?_append, hfront, Option.none_or, find?_cons_of_neg (by simp [ha]),
    ← find?_append]
  constructor
  · rintro ⟨_, hla', _, _, hns', hm⟩
    obtain ⟨-, -, rfl⟩ := h.split_label hns hlabel hns' hla'
    exact hm
  · exact fun hm => ⟨a, hlabel, _, _, hns, hm⟩

theorem exists_block (hn : n ∈ ns) : ∃ (i : Nat) (run : List Node), (cuts ns)[i]? = some run ∧ n ∈ run := by
  rw [← flatten_cuts ns] at hn
  obtain ⟨run, hrun, hn⟩ := mem_flatten.mp hn
  obtain ⟨i, hi⟩ := getElem?_of_mem hrun
  exact ⟨i, run, hi, hn⟩

theorem exists_labelBlock (h : (labelsOf ns).Nodup) (hl : l ∈ labelsOf ns) :
    ∃ j run, (labelBlocks (blocksOf ns)).lookup l = some j ∧ (cuts ns)[j]? = some run ∧ l ∈ labelsOf run := by
  obtain ⟨a, ha, hla⟩ := mem_labelsOf.mp hl
  obtain ⟨j, run, hj, hrun⟩ := exists_block ha
  have hl : l ∈ labelsOf run := mem_labelsOf.mpr ⟨a, hrun, hla⟩
  exact ⟨j, run, (labelBlock_eq_some h).mpr ⟨run, hj, hl⟩, hj, hl⟩

/-- A label that leads somewhere stands in a block. -/
theorem block_of_heads (h : Distinct ns) (hm : Heads ns l m) :
    ∃ j, (labelBlocks (blocksOf ns)).lookup l = some j ∧ onward ns j = some m := by
  obtain ⟨a, hla, ha⟩ := hm
  obtain ⟨j, _, hlookup, hj, hl⟩ := exists_labelBlock h.labels (mem_labelsOf.mpr ⟨a, ha.mem, hla⟩)
  exact ⟨j, hlookup, (heads_iff h hj hl).mp ⟨a, hla, ha⟩⟩

/-- A node of a block stands as far behind the blocks before it as it stands in its block. -/
theorem getElem?_of_cut {k : Nat} (hi : (cuts ns)[i]? = some run) (hk : run[k]? = some n) :
    ns[((cuts ns).take i).flatten.length + k]? = some n := by
  obtain ⟨_, _, hc, rfl⟩ := exists_cut hi
  obtain ⟨hlen, -⟩ := List.getElem?_eq_some_iff.mp hk
  rw [hc, take_left, eq_of_cuts hc, getElem?_append_right (by omega), Nat.add_sub_cancel_left,
    getElem?_append_left hlen]
  exact hk

/-- A block meets a stretch of positions if one of its instructions has a position there. -/
theorem meets_iff_position (h : Distinct ns) (hi : (cuts ns)[i]? = some run) :
    Block.meets ⟨run, ((cuts ns).take i).flatten.length⟩ s e = true ↔
      ∃ n ∈ run, n.acts = true ∧ ∃ p, ns[p]? = some n ∧ s ≤ p ∧ p < e := by
  rw [meets_iff]
  constructor
  · rintro ⟨k, n, hk, hsk, hke, hacts⟩
    exact ⟨n, mem_of_getElem? hk, hacts, _, getElem?_of_cut hi hk, hsk, hke⟩
  · rintro ⟨n, hn, hacts, p, hp, hsp, hpe⟩
    obtain ⟨k, hk⟩ := getElem?_of_mem hn
    obtain ⟨hlen, hp⟩ := List.getElem?_eq_some_iff.mp hp
    obtain ⟨hlen', hk'⟩ := List.getElem?_eq_some_iff.mp (getElem?_of_cut hi hk)
    obtain rfl : p = ((cuts ns).take i).flatten.length + k := (h.nodup.getElem_inj_iff).mp (hp.trans hk'.symm)
    exact ⟨k, n, hk, hsp, hpe, hacts⟩

/-- A block meets the positions between two labels if these enclose one of its instructions. -/
theorem meets_iff_encloses (h : Distinct ns) (hi : (cuts ns)[i]? = some run) :
    (∃ s e, (FlowIndex.labelPositions ns).lookup start = some s ∧ (FlowIndex.labelPositions ns).lookup stop = some e ∧
        Block.meets ⟨run, ((cuts ns).take i).flatten.length⟩ s e = true) ↔
      ∃ n ∈ run, n.acts = true ∧ Encloses ns start stop n := by
  simp only [meets_iff_position h hi, labelPosition_eq_some h.labels]
  constructor
  · rintro ⟨s, e, ⟨a, ha, hla⟩, ⟨c, hc, hlc⟩, n, hn, hacts, p, hp, hsp, hpe⟩
    exact ⟨n, hn, hacts, s, e, p, a, c, ha, hla, hc, hlc, hp, hsp, hpe⟩
  · rintro ⟨n, hn, hacts, s, e, p, a, c, ha, hla, hc, hlc, hp, hsp, hpe⟩
    exact ⟨s, e, ⟨a, ha, hla⟩, ⟨c, hc, hlc⟩, n, hn, hacts, p, hp, hsp, hpe⟩

/-- A node stands in one block. -/
theorem block_unique (h : Distinct ns) {run' : List Node} (hi : (cuts ns)[i]? = some run)
    (hj : (cuts ns)[j]? = some run') (hn : n ∈ run) (hn' : n ∈ run') : i = j := by
  have hnodup := h.nodup
  rw [← flatten_cuts ns, nodup_flatten] at hnodup
  have hdisjoint := pairwise_iff_getElem.mp hnodup.2
  obtain ⟨hil, rfl⟩ := List.getElem?_eq_some_iff.mp hi
  obtain ⟨hjl, rfl⟩ := List.getElem?_eq_some_iff.mp hj
  rcases Nat.lt_trichotomy i j with hlt | heq | hlt
  · exact absurd hn' (hdisjoint i j hil hjl hlt hn)
  · exact heq
  · exact absurd hn (hdisjoint j i hjl hil hlt hn')

end FlowGraph

/-! ### Blocks and instructions -/

namespace Body

open FlowGraph

variable {b : Body}

/-- Control comes to the first instruction of some end of the code. -/
theorem Arrives.exists_suffix (hn : b.Arrives n) : ∃ post, post <:+ b.nodes ∧ post.find? Node.acts = some n := by
  have hbehind {x : Node} (h : Ensues b.nodes x n) : ∃ post, post <:+ b.nodes ∧ post.find? Node.acts = some n := by
    obtain ⟨pre, post, he, hfind⟩ := h
    exact ⟨post, ⟨pre ++ [x], by simp [he]⟩, hfind⟩
  cases hn with
  | entry hn => exact ⟨b.nodes, suffix_rfl, hn⟩
  | step _ hpass =>
    cases hpass with
    | fall _ h => exact hbehind h
    | jump _ h =>
      obtain ⟨_, -, h⟩ := h
      exact hbehind h
    | thrown _ _ h =>
      obtain ⟨_, -, h⟩ := h
      exact hbehind h

theorem Arrives.acts (hn : b.Arrives n) : n.acts = true := by
  obtain ⟨_, -, hfind⟩ := hn.exists_suffix
  exact find?_some hfind

theorem Arrives.mem (hn : b.Arrives n) : n ∈ b.nodes := by
  obtain ⟨_, hpost, hfind⟩ := hn.exists_suffix
  exact hpost.subset (mem_of_find?_eq_some hfind)

section

variable (h : Distinct b.nodes)

include h

/-- Control that comes to the first instruction from a block on comes to all instructions of the block. -/
theorem arrives_block (hin : ∀ m, onward b.nodes i = some m → b.Arrives m)
    (hi : (cuts b.nodes)[i]? = some (front ++ n :: back)) (hn : n.acts = true) : b.Arrives n := by
  induction hlen : front.length using Nat.strongRecOn generalizing front back n with
  | ind _ ih =>
    by_cases hfirst : ∃ k ∈ front, k.acts = true
    · -- control comes from the instruction before, which does not end the block
      obtain ⟨before, k, between, rfl, hk, hbetween⟩ := exists_last hfirst
      have hcut : (cuts b.nodes)[i]? = some (before ++ k :: (between ++ n :: back)) := by simpa using hi
      have hfalls : k.instr.fallsThrough = true := by
        have hends := ends_eq_false hcut (by simp)
        simp only [ends, Node.isReal_of_acts hk, Bool.true_and, Bool.or_eq_false_iff, Bool.not_eq_false'] at hends
        exact hends.2
      have hnone : between.find? Node.acts = none := by simpa [find?_eq_none] using hbetween
      refine .step (ih before.length (by simp at hlen; omega) hcut hk rfl) (.fall hfalls ?_)
      rw [ensues_iff h hcut, find?_append, hnone, Option.none_or, find?_cons_of_pos hn, Option.some_or]
    · have hnone : front.find? Node.acts = none := by simpa [find?_eq_none] using hfirst
      refine hin n ?_
      rw [onward_eq hi, find?_append, hnone, Option.none_or, find?_cons_of_pos hn, Option.some_or]

/-- The graph leads from a block to the next one if its last instruction falls through, and to where an instruction
of the block jumps or its exceptions go. -/
theorem leads_cases (hleads : (of b).Leads i j) :
    ∃ run, (cuts b.nodes)[i]? = some run ∧
      ((j = i + 1 ∧ ∀ front n back, run = front ++ n :: back → n.acts = true → (∀ m ∈ back, m.acts = false) →
          n.instr.fallsThrough = true) ∨
        ∃ n ∈ run, n.acts = true ∧
          ((∃ t ∈ n.instr.targets, (labelBlocks (blocksOf b.nodes)).lookup t = some j) ∨
            ∃ r ∈ b.ranges, Encloses b.nodes r.start r.stop n ∧
              (labelBlocks (blocksOf b.nodes)).lookup r.handler = some j)) := by
  obtain ⟨_, hblock, hway⟩ := leads_of.mp hleads
  rw [getElem?_blocksOf, Option.map_eq_some_iff] at hblock
  obtain ⟨run, hi, rfl⟩ := hblock
  refine ⟨run, hi, ?_⟩
  rcases hway with ⟨hfalls, -, rfl⟩ | ⟨t, ht, hlook⟩ | ⟨r, hr, s, e, hs, he, hlook, hmeets⟩
  · refine .inl ⟨rfl, ?_⟩
    rintro front n back rfl hn hback
    rwa [fallsThrough, lastReal?_append _ hn hback] at hfalls
  · by_cases hacts : ∃ n ∈ run, n.acts = true
    · obtain ⟨front, n, back, rfl, hn, hback⟩ := exists_last hacts
      rw [targets, lastReal?_append _ hn hback] at ht
      exact .inr ⟨n, by simp, hn, .inl ⟨t, ht, hlook⟩⟩
    · rw [targets, lastReal?_eq_none _ (by simpa using hacts)] at ht
      cases ht
  · obtain ⟨n, hn, hacts, hencloses⟩ := (meets_iff_encloses h hi).mp ⟨s, e, hs, he, hmeets⟩
    exact .inr ⟨n, hn, hacts, .inr ⟨r, hr, hencloses, hlook⟩⟩

/-- A way of the graph is a way of control, or leads past a block that holds no instruction. -/
theorem arrives_of_leads (hin : ∀ m, onward b.nodes i = some m → b.Arrives m) (hleads : (of b).Leads i j)
    (hm : onward b.nodes j = some m) : b.Arrives m := by
  have hheads : ∀ l, (labelBlocks (blocksOf b.nodes)).lookup l = some j → Heads b.nodes l m := by
    intro l hlook
    obtain ⟨_, hj, hl⟩ := (labelBlock_eq_some h.labels).mp hlook
    exact (heads_iff h hj hl).mpr hm
  obtain ⟨run, hi, ⟨rfl, hfalls⟩ | ⟨n, hn, hacts, hway⟩⟩ := leads_cases h hleads
  · by_cases hacts : ∃ n ∈ run, n.acts = true
    · obtain ⟨front, n, back, rfl, hn, hback⟩ := exists_last hacts
      have hnone : back.find? Node.acts = none := by simpa [find?_eq_none] using hback
      refine .step (arrives_block h hin hi hn) (.fall (hfalls front n back rfl hn hback) ?_)
      rw [ensues_iff h hi, hnone, Option.none_or, hm]
    · refine hin m ?_
      rw [onward_eq hi, find?_eq_none.mpr (by simpa using hacts), Option.none_or, hm]
  · obtain ⟨_, _, rfl⟩ := append_of_mem hn
    have harrives := arrives_block h hin hi hacts
    rcases hway with ⟨t, ht, hlook⟩ | ⟨r, hr, hencloses, hlook⟩
    · exact .step harrives (.jump ht (hheads t hlook))
    · exact .step harrives (.thrown hr hencloses (hheads r.handler hlook))

theorem arrives_of_reached (hi : (of b).Reached i) : ∀ m, onward b.nodes i = some m → b.Arrives m := by
  induction hi with
  | entry =>
    intro m hm
    rw [onward_zero] at hm
    exact .entry hm
  | step _ hleads ih => exact fun m hm => arrives_of_leads h ih hleads hm

end

/-- From a block that control comes to it gets to the block of the first instruction from there on. -/
theorem visits_of_onward (hi : (of b).Reached i) (hm : onward b.nodes i = some m) : b.Visits m := by
  induction hgap : (cuts b.nodes).length - i generalizing i with
  | zero =>
    have := lt_length_of_onward hm
    omega
  | succ _ ih =>
    have hlen := lt_length_of_onward hm
    have hrun : (cuts b.nodes)[i]? = some (cuts b.nodes)[i] := getElem?_eq_getElem hlen
    rw [onward_eq hrun] at hm
    cases hfind : (cuts b.nodes)[i].find? Node.acts with
    | some k =>
      rw [hfind] at hm
      cases hm
      exact ⟨i, _, hrun, mem_of_find?_eq_some hfind, hi⟩
    | none =>
      rw [hfind] at hm
      have hnext := lt_length_of_onward hm
      have hblock := getElem?_blocksOf b.nodes i
      rw [hrun] at hblock
      have hleads : (of b).Leads i (i + 1) := by
        refine leads_of.mpr ⟨_, hblock, .inl ⟨?_, ?_, rfl⟩⟩
        · rw [fallsThrough, lastReal?_eq_none _ (by simpa using hfind)]
          rfl
        · rwa [← map_nodes_blocksOf, length_map] at hnext
      exact ih (.step hi hleads) hm (by omega)

/-- Control falls from the last instruction of a block into the next block. -/
theorem reached_of_fall (hreached : (of b).Reached i) (hi : (cuts b.nodes)[i]? = some (front ++ n :: back))
    (hn : n.acts = true) (hback : ∀ m ∈ back, m.acts = false) (hfalls : n.instr.fallsThrough = true)
    (hnext : i + 1 < (cuts b.nodes).length) : (of b).Reached (i + 1) := by
  have hblock := getElem?_blocksOf b.nodes i
  rw [hi] at hblock
  refine .step hreached (leads_of.mpr ⟨_, hblock, .inl ⟨?_, ?_, rfl⟩⟩)
  · rw [fallsThrough, lastReal?_append _ hn hback]
    exact hfalls
  · rwa [← map_nodes_blocksOf, length_map] at hnext

/-- Control jumps to the block of a label that an instruction names. -/
theorem reached_of_jump {t : Label} (hn : n.acts = true) (hvisits : b.Visits n) (ht : t ∈ n.instr.targets)
    (hlook : (labelBlocks (blocksOf b.nodes)).lookup t = some j) : (of b).Reached j := by
  obtain ⟨i, _, hi, hmem, hreached⟩ := hvisits
  have hblock := getElem?_blocksOf b.nodes i
  rw [hi] at hblock
  obtain ⟨_, back, rfl⟩ := append_of_mem hmem
  -- a jump is the last node of its block
  have hends : ends n = true := by
    simp [ends, Node.isReal_of_acts hn, Instruction.isJump, ne_nil_of_mem ht]
  have hback : back = [] := by
    by_contra hne
    have hnot := ends_eq_false hi hne
    simp [hends] at hnot
  subst hback
  refine .step hreached (leads_of.mpr ⟨_, hblock, .inr (.inl ⟨t, ?_, hlook⟩)⟩)
  rw [targets, lastReal?_append _ hn (by simp)]
  exact ht

/-- Control is thrown to the block of the handler of a range around an instruction. -/
theorem reached_of_thrown (h : Distinct b.nodes) {r : Range} (hn : n.acts = true) (hvisits : b.Visits n)
    (hr : r ∈ b.ranges) (hencloses : Encloses b.nodes r.start r.stop n)
    (hlook : (labelBlocks (blocksOf b.nodes)).lookup r.handler = some j) : (of b).Reached j := by
  obtain ⟨i, _, hi, hmem, hreached⟩ := hvisits
  have hblock := getElem?_blocksOf b.nodes i
  rw [hi] at hblock
  obtain ⟨s, e, hs, he, hmeets⟩ := (meets_iff_encloses h hi).mpr ⟨n, hmem, hn, hencloses⟩
  exact .step hreached (leads_of.mpr ⟨_, hblock, .inr (.inr ⟨r, hr, s, e, hs, he, hlook, hmeets⟩)⟩)

/-- Where control goes from an instruction, the graph has ways to. -/
theorem visits_of_passes (h : Distinct b.nodes) (hn : n.acts = true) (hvisits : b.Visits n) (hpass : b.Passes n m) :
    b.Visits m := by
  cases hpass with
  | fall hfalls hm =>
    obtain ⟨i, _, hi, hmem, hreached⟩ := hvisits
    obtain ⟨_, back, rfl⟩ := append_of_mem hmem
    rw [ensues_iff h hi] at hm
    cases hfind : back.find? Node.acts with
    | some k =>
      rw [hfind] at hm
      cases hm
      exact ⟨i, _, hi, by simp [mem_of_find?_eq_some hfind], hreached⟩
    | none =>
      rw [hfind] at hm
      have hback : ∀ m ∈ back, m.acts = false := by simpa using hfind
      exact visits_of_onward (reached_of_fall hreached hi hn hback hfalls (lt_length_of_onward hm)) hm
  | jump ht hm =>
    obtain ⟨j, hlook, hm⟩ := block_of_heads h hm
    exact visits_of_onward (reached_of_jump hn hvisits ht hlook) hm
  | thrown hr hencloses hm =>
    obtain ⟨j, hlook, hm⟩ := block_of_heads h hm
    exact visits_of_onward (reached_of_thrown h hn hvisits hr hencloses hlook) hm

/-- Control can come to an instruction if it can come to its block. -/
theorem visits_iff_arrives (h : Distinct b.nodes) (hn : n.acts = true) : b.Visits n ↔ b.Arrives n := by
  constructor
  · rintro ⟨i, _, hi, hmem, hreached⟩
    obtain ⟨_, _, rfl⟩ := append_of_mem hmem
    exact arrives_block h (arrives_of_reached h hreached) hi hn
  · intro harrives
    induction harrives with
    | entry hfind =>
      refine visits_of_onward (.entry fun hnil => ?_) ((onward_zero b.nodes).trans hfind)
      have hnil : blocksOf b.nodes = [] := hnil
      rw [← flatten_cuts b.nodes, ← map_nodes_blocksOf, hnil] at hfind
      cases hfind
    | step hprevious hpass ih => exact visits_of_passes h hprevious.acts (ih hprevious.acts) hpass

theorem Visits.mem (hn : b.Visits n) : n ∈ b.nodes := by
  obtain ⟨i, run, hi, hn, -⟩ := hn
  rw [← flatten_cuts b.nodes]
  exact mem_flatten.mpr ⟨run, mem_of_getElem? hi, hn⟩

/-- The nodes that the graph finds are those whose blocks control can come to. -/
theorem mem_reachable_iff_visits : n ∈ (of b).reachable ↔ b.Visits n := by
  have hseen : ∀ i, (of b).reachableBlocks.contains i = true ↔ (of b).Reached i := fun i => by
    rw [contains_iff_mem, mem_reachableBlocks]
  simp only [reachable, mem_flatMap, Prod.exists, mem_zipIdx_iff_getElem?]
  constructor
  · rintro ⟨block, i, hblock, hn⟩
    have hblock : (blocksOf b.nodes)[i]? = some block := hblock
    rw [getElem?_blocksOf, Option.map_eq_some_iff] at hblock
    obtain ⟨run, hi, rfl⟩ := hblock
    split at hn
    · rename_i hcontains
      exact ⟨i, run, hi, hn, (hseen i).mp hcontains⟩
    · cases hn
  · rintro ⟨i, run, hi, hn, hreached⟩
    have hblock := getElem?_blocksOf b.nodes i
    rw [hi] at hblock
    exact ⟨_, i, hblock, by rwa [if_pos ((hseen i).mpr hreached)]⟩

/-- Every node is marked once, in order. -/
theorem map_fst_reachability (b : Body) : b.reachability.map Prod.fst = b.nodes := by
  rw [reachability, map_flatMap]
  conv_rhs => rw [← flatten_cuts b.nodes, ← map_nodes_blocksOf, ← zipIdx_map_fst 0 (blocksOf b.nodes), map_map]
  congr 2
  simp [Function.comp_def]

/-- A node is marked with whether the graph finds it. -/
theorem reachability_eq (h : Distinct b.nodes) :
    b.reachability = b.nodes.map fun n => (n, (of b).reachable.contains n) := by
  conv_lhs => rw [← map_id b.reachability]
  conv_rhs => rw [← map_fst_reachability, map_map]
  refine map_congr_left fun p hp => ?_
  simp only [reachability, mem_flatMap, Prod.exists, mem_zipIdx_iff_getElem?, mem_map] at hp
  obtain ⟨block, i, hblock, n, hn, rfl⟩ := hp
  have hblock : (blocksOf b.nodes)[i]? = some block := hblock
  rw [getElem?_blocksOf, Option.map_eq_some_iff] at hblock
  obtain ⟨run, hi, rfl⟩ := hblock
  simp only [id_eq, Function.comp_apply, Prod.mk.injEq, true_and]
  rw [Bool.eq_iff_iff, contains_iff_mem, contains_iff_mem, mem_reachableBlocks, mem_reachable_iff_visits]
  constructor
  · exact fun hreached => ⟨i, run, hi, hn, hreached⟩
  · rintro ⟨j, _, hj, hn', hreached⟩
    rwa [block_unique h hi hj hn hn']

/-- The graph finds exactly the instructions that control can come to. -/
theorem mem_reachable_iff_arrives (h : Distinct b.nodes) {n : Node} (hn : n.acts = true) :
    n ∈ (of b).reachable ↔ b.Arrives n :=
  mem_reachable_iff_visits.trans (visits_iff_arrives h hn)

end Body

/-- Code with a jump to a label that is bound nowhere, a protected instruction, one that nothing leads to, and a
range with its ends swapped. -/
def looseBody : Body where
  maxStack := 1
  maxLocals := 0
  code := .ofInstrs [.label 0, .push (.int 0), .label 1, .jump 9, .stack .pop, .label 2, .line 7, .leave none]
  ranges := [⟨1, 0, 4, none⟩, ⟨0, 1, 2, some "E"⟩]

/-- Control comes to the handler, but not to what stands before it. -/
theorem looseBody_arrives : Distinct looseBody.nodes ∧ looseBody.Arrives ⟨7, some (.leave none)⟩ ∧
    ¬ looseBody.Arrives ⟨4, some (.stack .pop)⟩ := by
  have h : Distinct looseBody.nodes := ⟨by decide, by decide⟩
  exact ⟨h, (Body.mem_reachable_iff_arrives h rfl).mp (by decide +kernel), fun hdead =>
    absurd ((Body.mem_reachable_iff_arrives h rfl).mpr hdead) (by decide +kernel)⟩

end Untangle
