import Mathlib.Data.List.Perm.Subperm
import Untangle.Proofs.Code.Strands

/-!
# Inserting next to a node that was removed

A number stays valid for good, so the number of a removed node can be handed to an insertion. What is inserted before a
removed node, be it an instruction or a label, always leaves the listing in disorder: some node is no longer read, or
more nodes are read than there are. What is inserted after one is not read itself, which goes unnoticed only in a
listing where a removed node is read in its stead. Nothing is lost for good, however: every node can still be found by
its number.
-/

namespace Untangle

open List

variable {p : Place} {head tail : Bool} {i : Instr} {l' : Listing} {k next id : Nat} {ss front back : List Strand}
  {s : Strand}

open Strand

namespace Listing

variable {l : Listing} {post pre : List Node}

/-! ### Damage -/

/-- Every node that was there is still read, in the same order, and as many nodes are read as there are. -/
structure StillRead (l l' : Listing) : Prop where
  reachable : ∀ k, l.contains k = true → k ∈ l'.ids
  order : (l.nodes.filter Node.live).Sublist l'.nodes
  counted : l'.nodes.length = l'.size

/-- The numbers of the nodes that were not removed. -/
def liveIds (l : Listing) : List Nat := ((nodesOf l.strands).filter Node.live).map Node.id

theorem mem_liveIds : k ∈ l.liveIds ↔ l.contains k = true := by
  rw [contains_iff, liveIds, mem_map]
  simp only [mem_filter]
  exact exists_congr fun n => ⟨fun ⟨⟨hn, hl⟩, he⟩ => ⟨hn, he, hl⟩, fun ⟨hn, he, hl⟩ => ⟨⟨hn, hl⟩, he⟩⟩

theorem length_liveIds (l : Listing) : l.liveIds.length = l.size := by
  rw [liveIds, length_map, size_eq, countP_eq_length_filter]

theorem nodup_liveIds (h : l.InOrder) : l.liveIds.Nodup :=
  (filter_sublist.map _).nodup h.ids

/-- With one node more than before, two nodes cannot be read that were not there before. -/
theorem not_stillRead_of_two (h : l.InOrder) (hsize : l'.size = l.size + 1) {a b : Nat} (ha : a ∈ l'.ids)
    (hb : b ∈ l'.ids) (hab : a ≠ b) (hna : l.contains a = false) (hnb : l.contains b = false) : ¬ StillRead l l' := by
  intro hread
  have hnodup : (a :: b :: l.liveIds).Nodup := by
    simp only [nodup_cons, mem_cons, mem_liveIds, hna, hnb]
    exact ⟨by simp [hab], by simp, nodup_liveIds h⟩
  have hsub : (a :: b :: l.liveIds) ⊆ l'.ids := by
    intro k hk
    rcases mem_cons.mp hk with rfl | hk
    · exact ha
    rcases mem_cons.mp hk with rfl | hk
    · exact hb
    · exact hread.reachable k (mem_liveIds.mp hk)
  have hle := (subperm_of_subset hnodup hsub).length_le
  have hcounted := hread.counted
  rw [length_cons, length_cons, length_liveIds, ids, length_map] at hle
  omega

/-- If every node is read, then one too many is read exactly if a removed one is. -/
theorem length_nodes_eq_iff (h : l.InOrder) (hread : ∀ k, l.contains k = true → k ∈ l.ids) :
    l.nodes.length = l.size + 1 ↔ ∃ n ∈ l.nodes, n.live = false := by
  have hnodes := nodes_eq_nodesOf h
  have hsub : l.nodes.Sublist (nodesOf l.strands) := by
    rw [hnodes]
    exact filter_sublist.flatMap _
  have hlive : l.nodes.countP Node.live = l.size := by
    refine Nat.le_antisymm (by rw [size_eq]; exact hsub.countP_le) ?_
    have hids : l.liveIds ⊆ (l.nodes.filter Node.live).map Node.id := by
      intro k hk
      obtain ⟨n, hn, rfl⟩ := mem_map.mp hk
      obtain ⟨hn, hnlive⟩ := mem_filter.mp hn
      obtain ⟨m, hm, he⟩ := mem_map.mp (hread n.id (mem_liveIds.mp hk))
      obtain rfl := eq_of_id_eq h.ids (hsub.subset hm) hn he
      exact mem_map_of_mem (mem_filter.mpr ⟨hm, hnlive⟩)
    have hle := (subperm_of_subset (nodup_liveIds h) hids).length_le
    rwa [length_liveIds, length_map, ← countP_eq_length_filter] at hle
  have hone : l.nodes.countP (fun n => !n.live) ≤ 1 := by
    rw [nodes_eq_getD]
    cases hfind : l.strands.find? (·.isHead) with
    | none => simp
    | some s => exact h.anchors s (mem_of_find?_eq_some hfind)
  have hlength : l.nodes.length = l.nodes.countP Node.live + l.nodes.countP fun n => !n.live := by
    rw [length_eq_countP_add_countP Node.live]
    simp
  have hpos : 0 < l.nodes.countP (fun n => !n.live) ↔ ∃ n ∈ l.nodes, n.live = false := by
    simp
  rw [← hpos]
  omega

/-! ### Next to a number that stands for nothing -/

section Stale

variable {pre post nodes : List Node} {n : Node}

/-- A number that names nothing any more stands for a removed node. -/
theorem Stood.removed (hs : Stood l.strands id front s back pre n post) (hstale : l.contains id = false) :
    n.live = false := by
  have hmem : n ∈ s.nodes := by
    rw [hs.nodes]
    simp
  rcases hs.located.strands with hstrands | ⟨-, -, rfl⟩
  · refine Bool.eq_false_iff.mpr fun hlive => ?_
    rw [contains_iff.mpr ⟨n, mem_nodesOf.mpr ⟨s, by rw [hstrands]; simp, hmem⟩, hs.id_eq, hlive⟩] at hstale
    cases hstale
  · rw [mem_singleton.mp hmem]
    rfl

/-- After an insertion, one more node can be found. -/
theorem Stood.live_perm (hs : Stood l.strands id front s back pre n post)
    (hperm : nodes.Perm (⟨l.nextId, some i⟩ :: s.nodes))
    (hl' : l'.strands = (rethreaded front s back nodes head tail).filter fun s => !s.nodes.isEmpty) :
    ((nodesOf l'.strands).filter Node.live).Perm (⟨l.nextId, some i⟩ :: (nodesOf l.strands).filter Node.live) := by
  have hall : (nodesOf l'.strands).Perm (⟨l.nextId, some i⟩ :: nodesOf (front ++ s :: back)) := by
    rw [hl', nodesOf_filter_nonempty, rethreaded, nodesOf_append, nodesOf_cons, nodesOf_map_yield, nodesOf_map_yield,
      nodesOf_append]
    exact ((hperm.append_right _).append_left _).trans perm_middle
  have hfilter := hall.filter Node.live
  rwa [filter_cons_of_pos rfl, hs.located.filter_live] at hfilter

/-- What every insertion leaves: one more node, and all the others under their numbers. -/
structure Kept (l l' : Listing) (id : Nat) : Prop where
  size : l'.size = l.size + 1
  get : ∀ k i, l.get? k = some i → l'.get? k = some i
  stale : l'.contains id = false

theorem kept_of_perm (h : l.InOrder) (h' : l'.InOrder) (hid : id < l.nextId)
    (hstale : l.contains id = false)
    (hperm : ((nodesOf l'.strands).filter Node.live).Perm
      (⟨l.nextId, some i⟩ :: (nodesOf l.strands).filter Node.live)) : Kept l l' id where
  size := by
    rw [size_eq, size_eq, countP_eq_length_filter, hperm.length_eq, length_cons, ← countP_eq_length_filter]
  get k j hj := by
    have hmem := (get?_eq_some h.ids).mp hj
    refine (get?_eq_some h'.ids).mpr ?_
    have hlive : (⟨k, some j⟩ : Node) ∈ (nodesOf l'.strands).filter Node.live :=
      hperm.symm.subset (mem_cons_of_mem _ (mem_filter.mpr ⟨hmem, rfl⟩))
    exact (mem_filter.mp hlive).1
  stale := by
    refine Bool.eq_false_iff.mpr fun hc => ?_
    obtain ⟨n, hn, he, hlive⟩ := contains_iff.mp hc
    rcases mem_cons.mp (hperm.subset (mem_filter.mpr ⟨hn, hlive⟩)) with rfl | hold
    · dsimp only at he
      omega
    · rw [contains_iff.mpr ⟨n, (mem_filter.mp hold).1, he, hlive⟩] at hstale
      cases hstale

/-- No node has the number that is given out next. -/
theorem contains_nextId (h : l.InOrder) : l.contains l.nextId = false := by
  refine Bool.eq_false_iff.mpr fun hc => ?_
  obtain ⟨n, hn, he, -⟩ := contains_iff.mp hc
  exact absurd he (Nat.ne_of_lt (h.below n hn))

/-- The nodes of a strand that is not read are not among those that are. -/
theorem not_mem_ids_of_not_isHead (h : Threaded l.nextId (front ++ s :: back)) {m : Node} (hm : m ∈ s.nodes) :
    m.id ∉ (nodesOf ((front ++ back).filter (mark true))).map Node.id := by
  intro hmem
  obtain ⟨k, hk, he⟩ := mem_map.mp hmem
  exact h.apart.2.2 m hm k ((filter_sublist.flatMap _).subset hk) he.symm

section

variable (h : l.InOrder) (hid : id < l.nextId) (hstale : l.contains id = false)

include h hid hstale

theorem Joined.kept (hj : Joined l l' i front s back nodes head tail)
    (hs : Stood l.strands id front s back pre n post) : Kept l l' id :=
  kept_of_perm h (hj.inOrder hs.located h hid) hid hstale (hs.live_perm hj.perm hj.strands)

theorem kept_insertBefore (i : Instr) : Kept l (l.insertBefore id i).2 id := by
  obtain ⟨_, s, _, _, n, _, hs, hj⟩ := exists_insertBefore h id i
  exact hj.kept h hid hstale hs

theorem kept_insertAfter (i : Instr) : Kept l (l.insertAfter id i).2 id := by
  obtain ⟨_, s, _, _, n, _, hs, hj⟩ := exists_insertAfter h id i
  exact hj.kept h hid hstale hs

/-- What is inserted before a removed node does damage: either both are read, or what stands before them in
their strand is not. -/
theorem not_stillRead_insertBefore (i : Instr) : ¬ StillRead l (l.insertBefore id i).2 := by
  obtain ⟨_, s, _, pre, n, _, hs, hj⟩ := exists_insertBefore h id i
  have hsize := (hj.kept h hid hstale hs).size
  have hold := hs.located.threaded h hid
  have hnodes := nodes_rethreaded (hold.join hj.perm _ _) hj.strands
  cases hread : s.mark true || pre.isEmpty with
  | true =>
    rw [hread] at hnodes
    refine not_stillRead_of_two h hsize ?_ ?_ (by omega) (contains_nextId h) hstale
    · rw [ids, hnodes]
      simp
    · rw [ids, hnodes]
      simp [hs.id_eq]
  | false =>
    obtain ⟨-, hpre⟩ := Bool.or_eq_false_iff.mp hread
    obtain ⟨m, pre, rfl⟩ := exists_cons_of_ne_nil (by simpa using hpre : pre ≠ [])
    -- a strand holds one removed node, so the node before it is there, in a strand that is not read
    have hmem : m ∈ s.nodes := by
      rw [hs.nodes]
      simp
    have hlive : m.live = true := by
      have hanchors := hold.anchors s (by simp)
      rw [hs.nodes] at hanchors
      by_contra hdead
      rw [Bool.not_eq_true] at hdead
      simp [hdead, hs.removed hstale] at hanchors
    have hstrand : s ∈ l.strands := by
      rcases hs.located.strands with hstrands | ⟨-, -, rfl⟩
      · rw [hstrands]
        simp
      · have hone := hs.nodes
        simp at hone
    rw [hread] at hnodes
    intro hstill
    have hfound := hstill.reachable m.id (contains_iff.mpr ⟨m, mem_nodesOf.mpr ⟨s, hstrand, hmem⟩, rfl, hlive⟩)
    rw [ids, hnodes] at hfound
    exact not_mem_ids_of_not_isHead hold hmem hfound

/-- What is inserted after a removed node does no visible damage exactly if it is not read, all else is, and
another removed node is read too. -/
theorem stillRead_insertAfter_iff (i : Instr) :
    (StillRead l (l.insertAfter id i).2 ↔
      id ∉ l.ids ∧ (∀ k, l.contains k = true → k ∈ l.ids) ∧ ∃ n ∈ l.nodes, n.live = false) ∧
    (StillRead l (l.insertAfter id i).2 → l.nextId ∉ (l.insertAfter id i).2.ids) := by
  obtain ⟨_, s, _, _, n, _, hs, hj⟩ := exists_insertAfter h id i
  have hsize := (hj.kept h hid hstale hs).size
  have hold := hs.located.threaded h hid
  have hnodes := nodes_rethreaded (hold.join hj.perm _ _) hj.strands
  have hbefore := (nodes_eq_nodesOf h).trans (nodesOf_of_located h hid hs.located true)
  have hmem : n ∈ s.nodes := by
    rw [hs.nodes]
    simp
  generalize (l.insertAfter id i).2 = l' at hsize hnodes ⊢
  cases hread : s.mark true with
  | true =>
    rw [hread] at hnodes hbefore
    have hnot : ¬ StillRead l l' := by
      refine not_stillRead_of_two h hsize ?_ ?_ (by omega) (contains_nextId h) hstale
      · rw [ids, hnodes]
        simp
      · rw [ids, hnodes]
        simp [hs.id_eq]
    refine ⟨⟨fun hstill => absurd hstill hnot, fun hno => absurd ?_ hno.1⟩, fun hstill => absurd hstill hnot⟩
    rw [ids, hbefore, ← hs.id_eq]
    exact mem_map_of_mem hmem
  | false =>
    rw [hread] at hnodes hbefore
    have hsame : l'.nodes = l.nodes := hnodes.trans hbefore.symm
    have hids : l'.ids = l.ids := by rw [ids, ids, hsame]
    have hout : id ∉ l.ids := by
      rw [ids, hbefore, ← hs.id_eq]
      exact not_mem_ids_of_not_isHead hold hmem
    have hnew : l.nextId ∉ l.ids := by
      intro hc
      obtain ⟨m, hm, he⟩ := mem_map.mp hc
      rw [nodes_eq_nodesOf h] at hm
      exact absurd he (Nat.ne_of_lt (h.below m ((filter_sublist.flatMap _).subset hm)))
    refine ⟨⟨fun hstill => ?_, fun ⟨_, hall, hdead⟩ => ?_⟩, fun _ => by rwa [hids]⟩
    · have hall : ∀ k, l.contains k = true → k ∈ l.ids := fun k hk => hids ▸ hstill.reachable k hk
      refine ⟨hout, hall, (length_nodes_eq_iff h hall).mp ?_⟩
      rw [← hsame, hstill.counted, hsize]
    · refine ⟨fun k hk => hids ▸ hall k hk, by rw [hsame]; exact filter_sublist, ?_⟩
      rw [hsame, hsize]
      exact (length_nodes_eq_iff h hall).mpr hdead

end

/-- There is no label to be found at a number that names nothing, so a new one is put there. -/
theorem labelAt_of_stale (hstale : l.contains id = false) :
    l.labelAt id = if l.nextLabel < 4294967295 then
      .ok (l.nextLabel, (l.insertBefore id (.label l.nextLabel)).2) else .error .labelOverflow := by
  have hnone : l.livePlace? id = none := by
    cases hp : l.livePlace? id with
    | none => rfl
    | some p =>
      rw [contains, get?, hp, Option.bind_some, ← Node.live, (of_livePlace? hp).1.2] at hstale
      cases hstale
  simp only [labelAt, hnone, Option.bind_none, newLabel]
  split
  · rw [← insertBefore_given]
    rfl
  · rfl

end Stale

/-- In every listing that edits lead to, and for every number that was given out and whose node was removed:
inserting an instruction or a label before that node leaves some node unread or reads more nodes than there are,
and so does inserting after it, unless its strand is not read, all nodes are, and a removed one besides. In that
case the new node is not read. All that is certain after each of these edits is that there is one node more, that
every node is found under its number with what it held, and that the number still names nothing. A label is there
to insert as long as labels have numbers. -/
theorem insert_at_removed {l : Listing} (h : l.Reached) {id : Nat} (hid : id < l.nextId)
    (hstale : l.contains id = false) (i : Instr) :
    ¬ StillRead l (l.insertBefore id i).2 ∧
      (l.nextLabel < 4294967295 → ∃ name l', l.labelAt id = .ok (name, l') ∧ ¬ StillRead l l' ∧ Kept l l' id) ∧
      (4294967295 ≤ l.nextLabel → l.labelAt id = .error .labelOverflow) ∧
      ((StillRead l (l.insertAfter id i).2 ↔
        id ∉ l.ids ∧ (∀ k, l.contains k = true → k ∈ l.ids) ∧ ∃ n ∈ l.nodes, n.live = false) ∧
      (StillRead l (l.insertAfter id i).2 → l.nextId ∉ (l.insertAfter id i).2.ids)) ∧
      ∀ l' ∈ [(l.insertBefore id i).2, (l.insertAfter id i).2], Kept l l' id := by
  have hthreaded := h.inOrder
  have hlabel := labelAt_of_stale hstale
  refine ⟨not_stillRead_insertBefore hthreaded hid hstale i, fun hleft => ?_, fun hnone => ?_,
    stillRead_insertAfter_iff hthreaded hid hstale i, ?_⟩
  · rw [if_pos hleft] at hlabel
    exact ⟨_, _, hlabel, not_stillRead_insertBefore hthreaded hid hstale _, kept_insertBefore hthreaded hid hstale _⟩
  · rw [hlabel, if_neg (Nat.not_lt.mpr hnone)]
  · simp only [forall_mem_cons, not_mem_nil, false_imp_iff, implies_true, and_true]
    exact ⟨kept_insertBefore hthreaded hid hstale i, kept_insertAfter hthreaded hid hstale i⟩

/-- Two instructions, the first of which was removed. -/
def beheaded : Listing := ((({} : Listing).push (.push (.int 1))).2.push (.leave none)).2.remove 0 |>.2

theorem reached_beheaded : beheaded.Reached := ((Reached.empty.push _).push _).remove 0

theorem beheaded_insert_at_removed :
    beheaded.Reached ∧ 0 < beheaded.nextId ∧ beheaded.contains 0 = false ∧
      ¬ StillRead beheaded (beheaded.insertBefore 0 (.leave none)).2 ∧
      (∃ name l', beheaded.labelAt 0 = .ok (name, l') ∧ ¬ StillRead beheaded l' ∧ Kept beheaded l' 0) ∧
      ¬ StillRead beheaded (beheaded.insertAfter 0 (.leave none)).2 ∧
      Kept beheaded (beheaded.insertAfter 0 (.leave none)).2 0 := by
  have hstale : beheaded.contains 0 = false := by decide +kernel
  obtain ⟨hbefore, hlabel, -, ⟨hafter, -⟩, hkept⟩ :=
    insert_at_removed reached_beheaded (by decide) hstale (.leave none)
  refine ⟨reached_beheaded, by decide, hstale, hbefore, hlabel (by decide), fun hstill => ?_, hkept _ (by simp)⟩
  -- no removed node is read in this listing
  obtain ⟨n, hn, hdead⟩ := (hafter.mp hstill).2.2
  have hlive : ∀ n ∈ beheaded.nodes, n.live = true := by decide +kernel
  rw [hlive n hn] at hdead
  cases hdead

/-- An instruction that is inserted before the removed node takes the place of the one that is there: what is
read afterwards is the new node and the removed one. -/
theorem beheaded_insertBefore :
    beheaded.Reached ∧ 0 < beheaded.nextId ∧ beheaded.contains 0 = false ∧ beheaded.ids = [1] ∧
      (beheaded.insertBefore 0 (.leave none)).2.ids = [2, 0] ∧
      ¬ StillRead beheaded (beheaded.insertBefore 0 (.leave none)).2 := by
  have hids : (beheaded.insertBefore 0 (.leave none)).2.ids = [2, 0] := by decide +kernel
  refine ⟨reached_beheaded, by decide, by decide +kernel, by decide +kernel, hids, fun hstill => ?_⟩
  have hread := hstill.reachable 1 (by decide +kernel)
  revert hread
  decide

end Listing

end Untangle
