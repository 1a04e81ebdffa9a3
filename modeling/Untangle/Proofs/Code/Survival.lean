import Untangle.Proofs.Code.Passage

/-!
# What taking out nodes leaves alone

Nodes and ranges can be taken out of a body without changing where control gets to, if the instructions that it
gets to stay, with the labels that they name, the ranges around them and the labels of these. It gets to the
same instructions then. It also gets to the same lines, and that needs an argument at the end of the code. The
lines there form a block without instructions if the last instruction does not fall through, and such a block
counts as visited only for its labels.
-/

namespace Untangle

open List

variable {x y : Node} {i j : Nat} {run : List Node}

namespace Body

open FlowGraph

/-- Of the body `b` some nodes and ranges stay in `b'`, among them all that control gets to or goes by. -/
structure Spares (b b' : Body) (stays : Node → Bool) : Prop where
  nodes : b'.nodes = b.nodes.filter stays
  real : ∀ n ∈ b.nodes, n.isReal = true → (stays n = true ↔ b.Arrives n)
  /-- The labels that instructions name. -/
  targets : ∀ n, b.Arrives n → ∀ t ∈ n.instr.targets, ∀ a ∈ b.nodes, a.instr = .label t → stays a = true
  /-- The ranges around instructions, -/
  ranges : ∀ n, b.Arrives n → ∀ r ∈ b.ranges, Encloses b.nodes r.start r.stop n → r ∈ b'.ranges
  /-- and their labels. -/
  bounds : ∀ n, b.Arrives n → ∀ r ∈ b.ranges, Encloses b.nodes r.start r.stop n → ∀ a ∈ b.nodes,
    (a.instr = .label r.start ∨ a.instr = .label r.stop ∨ a.instr = .label r.handler) → stays a = true

namespace Spares

variable {b b' : Body} {stays : Node → Bool} (hs : b.Spares b' stays) {n : Node}

include hs

theorem of_arrives (hn : b.Arrives n) : stays n = true :=
  (hs.real n hn.mem (Node.isReal_of_acts hn.acts)).mpr hn

theorem mem_iff (hn : n ∈ b.nodes) (hr : n.isReal = true) : n ∈ b'.nodes ↔ b.Arrives n := by
  rw [hs.nodes, mem_filter, and_iff_right hn, hs.real n hn hr]

theorem mem_of_arrives (hn : b.Arrives n) : n ∈ b'.nodes :=
  (hs.mem_iff hn.mem (Node.isReal_of_acts hn.acts)).mpr hn

theorem sublist : b'.nodes.Sublist b.nodes := by
  rw [hs.nodes]
  exact filter_sublist

/-- Two nodes that stay keep their order. -/
theorem pair_sublist (hsub : [x, y].Sublist b.nodes) (hx : stays x = true) (hy : stays y = true) :
    [x, y].Sublist b'.nodes := by
  have hsub' := hsub.filter stays
  rwa [filter_eq_self.mpr (by simp [hx, hy]), ← hs.nodes] at hsub'

/-! ### Instructions -/

theorem encloses {r : Range} (hn : b.Arrives n) (hr : r ∈ b.ranges) (h : Encloses b.nodes r.start r.stop n) :
    Encloses b'.nodes r.start r.stop n := by
  have hreal := Node.isReal_of_acts hn.acts
  have hbounds := hs.bounds n hn r hr h
  rw [encloses_iff_covers hreal] at h ⊢
  obtain ⟨a, c, ha, hc, hsub⟩ := h
  have hsa := hbounds a (hsub.subset (by simp)) (.inl ha)
  have hsc := hbounds c (hsub.subset (by simp)) (.inr (.inl hc))
  have hsub' := hsub.filter stays
  rw [filter_eq_self.mpr (by simp [hsa, hsc, hs.of_arrives hn]), ← hs.nodes] at hsub'
  exact ⟨a, c, ha, hc, hsub'⟩

theorem passes {m : Node} (hn : b.Arrives n) (hpass : b.Passes n m) : b'.Passes n m := by
  have hm := hs.of_arrives (.step hn hpass)
  cases hpass with
  | fall hfalls hfirst =>
    refine .fall hfalls ?_
    rw [hs.nodes]
    exact hfirst.filter (hs.of_arrives hn) hm
  | jump ht hfirst =>
    obtain ⟨a, ha, hfirst⟩ := hfirst
    refine .jump ht ⟨a, ha, ?_⟩
    rw [hs.nodes]
    exact hfirst.filter (hs.targets n hn _ ht a hfirst.mem ha) hm
  | thrown hr h hfirst =>
    obtain ⟨a, ha, hfirst⟩ := hfirst
    refine .thrown (hs.ranges n hn _ hr h) (hs.encloses hn hr h) ⟨a, ha, ?_⟩
    rw [hs.nodes]
    exact hfirst.filter (hs.bounds n hn _ hr h a hfirst.mem (.inr (.inr ha))) hm

/-- Control still comes to every instruction that it came to. -/
theorem arrives (hn : b.Arrives n) : b'.Arrives n := by
  induction hn with
  | entry hfind =>
    refine .entry ?_
    rw [hs.nodes]
    exact find?_filter hfind (hs.of_arrives (.entry hfind))
  | step hn hpass ih => exact .step ih (hs.passes hn hpass)

end Spares

/-! ### Lines at the end -/

/-- A body ends in an instruction that control does not fall through, and nodes behind it that are none. -/
structure Ending (b : Body) (last : Node) (tail : List Node) : Prop where
  nodes : ∃ pre, b.nodes = pre ++ last :: tail
  real : last.isReal = true
  stops : last.instr.fallsThrough = false
  hollow : ∀ n ∈ tail, n.isReal = false

namespace Spares

variable {b b' : Body} {stays : Node → Bool} (hs : b.Spares b' stays) {last : Node} {tail : List Node}
  (he : b'.Ending last tail)

include hs he

theorem last_stays : last ∈ b.nodes ∧ stays last = true := by
  obtain ⟨_, hns⟩ := he.nodes
  refine mem_filter.mp ?_
  rw [← hs.nodes, hns]
  simp

/-- What stays of the nodes behind the last instruction stands in the tail. -/
theorem mem_tail (h : Distinct b.nodes) {a : Node} (hsub : [last, a].Sublist b.nodes) (ha : stays a = true) :
    a ∈ tail := by
  obtain ⟨_, hns⟩ := he.nodes
  exact (h.sublist hs.sublist).mem_of_pair_sublist hns (hs.pair_sublist hsub (hs.last_stays he).2 ha)

/-- What stays of the nodes behind one of the tail is no instruction. -/
theorem not_real_behind (h : Distinct b.nodes) (hx : x ∈ tail) (hsub : [x, n].Sublist b.nodes) (hn : stays n = true) :
    n.isReal = false := by
  obtain ⟨pre, hns⟩ := he.nodes
  obtain ⟨before, after, rfl⟩ := append_of_mem hx
  have hns' : b'.nodes = (pre ++ last :: before) ++ x :: after := by simpa using hns
  have hxstays : stays x = true := by
    have hmem : x ∈ b'.nodes := by simp [hns]
    rw [hs.nodes] at hmem
    exact (mem_filter.mp hmem).2
  have hmem := (h.sublist hs.sublist).mem_of_pair_sublist hns' (hs.pair_sublist hsub hxstays hn)
  exact he.hollow n (by simp [hmem])

/-- An instruction that control comes to is the last one left, or stands before it. -/
theorem before_last (hy : b.Arrives y) (hne : y ≠ last) : [y, last].Sublist b.nodes := by
  obtain ⟨_, hns⟩ := he.nodes
  have hmem := hs.mem_of_arrives hy
  rw [hns, mem_append, mem_cons] at hmem
  refine trans ?_ hs.sublist
  rw [hns]
  rcases hmem with hpre | heq | hmem
  · exact pair_sublist_append hpre mem_cons_self
  · exact absurd heq hne
  · have hreal := Node.isReal_of_acts hy.acts
    rw [he.hollow y hmem] at hreal
    cases hreal

section

variable (h : Distinct b.nodes)

include h

/-- A block that control gets to holds no instruction if a node of the tail stood in it. -/
theorem hollow_block (hlive : ∀ n ∈ b.nodes, n.live = true) (hx : x ∈ tail) (hi : (cuts b.nodes)[i]? = some run)
    (hxi : x ∈ run) (hreached : (of b).Reached i) : ∀ n ∈ run, n.isReal = false := by
  by_contra hreal
  have hsome : ∃ n ∈ run, n.isReal = true := by simpa using hreal
  obtain ⟨front, y, back, rfl, hy, hback⟩ := exists_last hsome
  obtain ⟨left, right, hc, -⟩ := exists_cut hi
  have hsplit : b.nodes = (left.flatten ++ front) ++ y :: (back ++ right.flatten) := by
    rw [eq_of_cuts hc]
    simp
  have hvisits : b.Visits y := ⟨i, _, hi, by simp, hreached⟩
  have harrives : b.Arrives y :=
    (visits_iff_arrives h (by rw [Node.acts_of_live (hlive y hvisits.mem), hy])).mp hvisits
  rcases mem_append.mp hxi with hfront | hxi
  · -- the instruction stands behind the node, so it would be in the tail
    have hsub : [x, y].Sublist b.nodes := by
      rw [hsplit]
      exact pair_sublist_append (mem_append_right _ hfront) mem_cons_self
    simp [hs.not_real_behind he h hx hsub (hs.of_arrives harrives)] at hy
  · rcases mem_cons.mp hxi with rfl | hxback
    · simp [he.hollow x hx] at hy
    · -- the instruction falls through, so it is not the last one left, and that one stands behind the node
      have hends := ends_eq_false hi (ne_nil_of_mem hxback)
      have hne : y ≠ last := by
        rintro rfl
        simp [ends, hy, he.stops] at hends
      have hright : last ∈ right.flatten := by
        have hmem := h.mem_of_pair_sublist hsplit (hs.before_last he harrives hne)
        refine (mem_append.mp hmem).resolve_left fun hmem => ?_
        have hreal := he.real
        simp [hback last hmem] at hreal
      have hsub : [x, last].Sublist b.nodes := by
        rw [hsplit, ← cons_append, ← append_assoc]
        exact pair_sublist_append (by simp [hxback]) hright
      have hreal := he.real
      simp [hs.not_real_behind he h hx hsub (hs.last_stays he).2] at hreal

/-- A label of the last block is one of the tail, if it stays. -/
theorem lookup_tail (hi : (cuts b.nodes)[i]? = some run) (hrun : ∀ n ∈ run, n.isReal = false)
    (hj : (cuts b'.nodes)[j]? = some tail) {l : Label} (hlook : (labelBlocks (blocksOf b.nodes)).lookup l = some i)
    (hstays : ∀ a ∈ b.nodes, a.instr = .label l → stays a = true) :
    (labelBlocks (blocksOf b'.nodes)).lookup l = some j := by
  obtain ⟨_, hi', hl⟩ := (labelBlock_eq_some h.labels).mp hlook
  rw [hi] at hi'
  cases hi'
  obtain ⟨a, ha, hla⟩ := mem_labelsOf.mp hl
  obtain ⟨left, hc, -⟩ := cuts_of_hollow hi hrun
  have hnodes : b.nodes = left.flatten ++ run := by simpa using eq_of_cuts hc
  have hbefore : last ∈ left.flatten := by
    have hmem := (hs.last_stays he).1
    rw [hnodes] at hmem
    refine (mem_append.mp hmem).resolve_right fun hmem => ?_
    have hreal := he.real
    simp [hrun last hmem] at hreal
  have hsa := hstays a (by simp [hnodes, ha]) hla
  have hmem := hs.mem_tail he h (hnodes ▸ pair_sublist_append hbefore ha) hsa
  exact (labelBlock_eq_some (h.sublist hs.sublist).labels).mpr ⟨tail, hj, mem_labelsOf.mpr ⟨a, hmem, hla⟩⟩

section

variable (hlive : ∀ n ∈ b.nodes, n.live = true)

include hlive

/-- Control does not fall into the last block: the instruction before it would be the last one left. -/
theorem not_falls {k : Nat} {run' : List Node}
    (hk : (of b).Reached k) (hrun' : (cuts b.nodes)[k]? = some run') (hi : (cuts b.nodes)[k + 1]? = some run)
    (hrun : ∀ n ∈ run, n.isReal = false) : ¬ ∀ front n back, run' = front ++ n :: back → n.acts = true →
      (∀ m ∈ back, m.acts = false) → n.instr.fallsThrough = true := by
  intro hfall
  obtain ⟨front, y, back, hcut, hy, hback, -, _, hsplit⟩ := exists_before_hollow hi hrun
  rw [hrun'] at hcut
  cases hcut
  have hlive' : ∀ m ∈ y :: back, m.acts = m.isReal := by
    intro m hm
    refine Node.acts_of_live (hlive m ?_)
    rw [hsplit]
    exact mem_append_right _ (mem_append_left _ hm)
  have hacts : y.acts = true := by rw [hlive' y (by simp), hy]
  have hne : y ≠ last := by
    rintro rfl
    have hfalls := hfall front y back rfl hacts fun m hm => by rw [hlive' m (by simp [hm]), hback m hm]
    simp [he.stops] at hfalls
  have harrives : b.Arrives y := (visits_iff_arrives h hacts).mp ⟨k, _, hrun', by simp, hk⟩
  have hreal := he.real
  rcases mem_append.mp (h.mem_of_pair_sublist hsplit (hs.before_last he harrives hne)) with hmem | hmem
  · simp [hback last hmem] at hreal
  · simp [hrun last hmem] at hreal

/-- The block of the tail counts as visited if that of one of its nodes did. -/
theorem reached_tail (hj : (cuts b'.nodes)[j]? = some tail) (hx : x ∈ tail) (hvisits : b.Visits x) :
    (of b').Reached j := by
  have h' := h.sublist hs.sublist
  obtain ⟨i, _, hi, hxi, hreached⟩ := hvisits
  have hrun := hs.hollow_block he h hlive hx hi hxi hreached
  cases hreached with
  | entry =>
    -- the first block holds the last instruction, if it is the only one
    obtain ⟨_, hc, hleft⟩ := cuts_of_hollow hi hrun
    obtain rfl := length_eq_zero_iff.mp hleft
    have hmem := (hs.last_stays he).1
    rw [← flatten_cuts b.nodes, hc] at hmem
    have hreal := he.real
    simp [hrun last (by simpa using hmem)] at hreal
  | step hk hleads =>
    obtain ⟨run', hrun', ⟨rfl, hfall⟩ | ⟨n, hn, hacts, hway⟩⟩ := leads_cases h hleads
    · exact absurd hfall (hs.not_falls he h hlive hk hrun' hi hrun)
    · have hn : b.Arrives n := (visits_iff_arrives h hacts).mp ⟨_, run', hrun', hn, hk⟩
      have hvisits := (visits_iff_arrives h' hacts).mpr (hs.arrives hn)
      rcases hway with ⟨t, ht, hl⟩ | ⟨r, hr, hencloses, hl⟩
      · exact reached_of_jump hacts hvisits ht (hs.lookup_tail he h hi hrun hj hl (hs.targets n hn t ht))
      · exact reached_of_thrown h' hacts hvisits (hs.ranges n hn r hr hencloses) (hs.encloses hn hr hencloses)
          (hs.lookup_tail he h hi hrun hj hl fun a ha hla => hs.bounds n hn r hr hencloses a ha (.inr (.inr hla)))

omit he in
/-- What stays is visited if it was. -/
theorem visits (hx : x ∈ b'.nodes) (hvisits : b.Visits x) : b'.Visits x := by
  have h' := h.sublist hs.sublist
  have hlive' : ∀ n ∈ b'.nodes, n.acts = n.isReal := fun n hn => Node.acts_of_live (hlive n (hs.sublist.subset hn))
  have hreached : ∀ {i : Nat} {run : List Node} {n : Node}, (cuts b'.nodes)[i]? = some run → n ∈ run →
      n.isReal = true → (of b').Reached i := by
    intro i run n hi hn hreal
    have hmem : n ∈ b'.nodes := by
      rw [← flatten_cuts b'.nodes]
      exact mem_flatten.mpr ⟨run, mem_of_getElem? hi, hn⟩
    have harrives := (hs.mem_iff (hs.sublist.subset hmem) hreal).mp hmem
    obtain ⟨k, _, hk, hnk, hreached⟩ := (visits_iff_arrives h' harrives.acts).mpr (hs.arrives harrives)
    rwa [block_unique h' hi hk hn hnk]
  obtain ⟨j, run, hj, hxj⟩ := exists_block hx
  refine ⟨j, run, hj, hxj, ?_⟩
  by_cases hreal : ∃ n ∈ run, n.isReal = true
  · obtain ⟨n, hn, hreal⟩ := hreal
    exact hreached hj hn hreal
  · have hrun : ∀ n ∈ run, n.isReal = false := by simpa using hreal
    cases j with
    | zero =>
      refine .entry fun hnil => ?_
      have hnil : blocksOf b'.nodes = [] := hnil
      rw [← map_nodes_blocksOf, hnil] at hj
      cases hj
    | succ j =>
      obtain ⟨_, last, back, hcut, hlast, hback, hend, pre, hns⟩ := exists_before_hollow hj hrun
      cases hfalls : last.instr.fallsThrough with
      | true =>
        have hmem : ∀ n ∈ last :: back, n.acts = n.isReal := fun n hn =>
          hlive' n (by rw [hns]; simp at hn ⊢; tauto)
        refine reached_of_fall (hreached hcut (by simp) hlast) hcut (by rw [hmem last (by simp),
          hlast]) (fun n hn => ?_)
          hfalls (List.getElem?_eq_some_iff.mp hj).1
        rw [hmem n (by simp [hn]), hback n hn]
      | false =>
        obtain rfl := hend hfalls
        exact hs.reached_tail ⟨⟨pre, hns⟩, hlast, hfalls, hrun⟩ h hlive hj hxj hvisits

end

end

end Spares

end Body

end Untangle
