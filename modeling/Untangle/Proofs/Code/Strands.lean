import Mathlib.Data.List.Flatten
import Untangle.Proofs.Code.Listing
import Untangle.Proofs.Results

/-!
# The strands of a listing

Whatever was done to a listing, its strands hold every node once, each of them holds at most one removed node, and at
most one of them is read and at most one is added to (`Strand.Threaded`). An edit gives one strand other nodes, and
that strand may become the one that is read or added to (`Strand.rethreaded`).
-/

namespace Untangle

open List

variable {p : Place} {head tail : Bool} {i : Instr} {l' : Listing} {k next id : Nat} {ss front back : List Strand}
  {s : Strand} {n : Node} {e : Bool} {test : Node → Bool}

/-! ### Strands -/

namespace Strand

/-- The nodes of all strands. -/
def nodesOf (ss : List Strand) : List Node := ss.flatMap nodes

@[simp] theorem nodesOf_append (ss ts : List Strand) : nodesOf (ss ++ ts) = nodesOf ss ++ nodesOf ts :=
  flatMap_append

@[simp] theorem nodesOf_cons (s : Strand) (ss : List Strand) : nodesOf (s :: ss) = s.nodes ++ nodesOf ss :=
  flatMap_cons

@[simp] theorem nodesOf_map_yield (head tail : Bool) (ss : List Strand) :
    nodesOf (ss.map (yield head tail)) = nodesOf ss := by
  rw [nodesOf, flatMap_map]
  rfl

theorem nodesOf_perm (front : List Strand) (s : Strand) (back : List Strand) :
    (nodesOf (front ++ s :: back)).Perm (s.nodes ++ nodesOf (front ++ back)) := by
  simp only [nodesOf_append]
  exact perm_append_comm_assoc _ _ _

theorem map_yield_false_false (ss : List Strand) : ss.map (yield false false) = ss := by
  refine (map_congr_left fun t _ => ?_).trans (map_id ss)
  simp [yield]

/-- Empty strands hold nothing. -/
theorem nodesOf_filter_nonempty (ss : List Strand) : nodesOf (ss.filter fun s => !s.nodes.isEmpty) = nodesOf ss := by
  induction ss with
  | nil => rfl
  | cons s ss ih =>
    rw [filter_cons]
    split
    case isTrue => rw [nodesOf_cons, nodesOf_cons, ih]
    case isFalse h =>
      have hnil : s.nodes = [] := by simpa using h
      rw [ih, nodesOf_cons, hnil, nil_append]

theorem mem_nodesOf : n ∈ nodesOf ss ↔ ∃ s ∈ ss, n ∈ s.nodes := mem_flatMap

theorem holds_iff : s.holds id = true ↔ ∃ n ∈ s.nodes, n.id = id := by
  simp [holds]

/-- A strand is the one that is read or, for `false`, the one that is added to. -/
def mark : Bool → Strand → Bool
  | true, s => s.isHead
  | false, s => s.isTail

/-- What one of two flags says of a mark. -/
theorem mark_yield (e head tail : Bool) (s : Strand) :
    (s.yield head tail).mark e = (s.mark e && !(bif e then head else tail)) := by
  cases e <;> rfl

/-- Every node has a number of its own, all below `next`. A strand holds at most one removed node, and at most
one strand is read and at most one added to. -/
structure Threaded (next : Nat) (ss : List Strand) : Prop where
  ids : ((nodesOf ss).map Node.id).Nodup
  below : ∀ n ∈ nodesOf ss, n.id < next
  anchors : ∀ s ∈ ss, s.nodes.countP (fun n => !n.live) ≤ 1
  marks : ∀ e, ss.countP (mark e) ≤ 1

/-- Other nodes in the place of a strand's, which may become the one that is read or added to. -/
def rethreaded (front : List Strand) (s : Strand) (back : List Strand) (nodes : List Node) (head tail : Bool) :
    List Strand :=
  front.map (yield head tail) ++ ⟨nodes, s.isHead || head, s.isTail || tail⟩ :: back.map (yield head tail)

theorem mark_mk (e head tail : Bool) (s : Strand) (nodes : List Node) :
    mark e ⟨nodes, s.isHead || head, s.isTail || tail⟩ = (s.mark e || bif e then head else tail) := by
  cases e <;> rfl

theorem nodesOf_rethreaded_perm (front : List Strand) (s : Strand) (back : List Strand) (nodes : List Node)
    (head tail : Bool) :
    (nodesOf (rethreaded front s back nodes head tail)).Perm (nodes ++ nodesOf (front ++ back)) := by
  have hperm := nodesOf_perm (front.map (yield head tail)) ⟨nodes, s.isHead || head, s.isTail || tail⟩
    (back.map (yield head tail))
  rwa [← map_append, nodesOf_map_yield] at hperm

namespace Threaded

theorem mono (h : Threaded next ss) {next' : Nat} (hle : next ≤ next') : Threaded next' ss :=
  { h with below := fun n hn => Nat.lt_of_lt_of_le (h.below n hn) hle }

theorem sublist (h : Threaded next ss) {ts : List Strand} (hsub : ts.Sublist ss) : Threaded next ts where
  ids := ((hsub.flatMap _).map _).nodup h.ids
  below n hn := h.below n ((hsub.flatMap _).subset hn)
  anchors s hs := h.anchors s (hsub.subset hs)
  marks e := Nat.le_trans hsub.countP_le (h.marks e)

/-- An empty strand changes nothing. -/
theorem blank (h : Threaded next ss) : Threaded next (⟨[], false, false⟩ :: ss) where
  ids := h.ids
  below := h.below
  anchors := forall_mem_cons.mpr ⟨by simp, h.anchors⟩
  marks e := by cases e <;> simpa [mark] using h.marks _

/-- The nodes of a strand have numbers of their own, also among those of the other strands. -/
theorem apart (h : Threaded next (front ++ s :: back)) : (s.nodes.map Node.id).Nodup ∧
    ((nodesOf (front ++ back)).map Node.id).Nodup ∧ ∀ n ∈ s.nodes, ∀ m ∈ nodesOf (front ++ back), n.id ≠ m.id := by
  have hids := ((nodesOf_perm front s back).map Node.id).nodup_iff.mp h.ids
  rw [map_append, nodup_append] at hids
  exact ⟨hids.1, hids.2.1, fun n hn m hm => hids.2.2 _ (mem_map_of_mem hn) _ (mem_map_of_mem hm)⟩

theorem countP_map_yield (e head tail : Bool) (ss : List Strand) :
    (ss.map (yield head tail)).countP (mark e) = if (bif e then head else tail) then 0 else ss.countP (mark e) := by
  cases he : bif e then head else tail <;> simp [Function.comp_def, mark_yield, he]

/-- A strand may get other nodes, if their numbers stand in no other strand and at most one was removed. -/
theorem rethread (h : Threaded next (front ++ s :: back)) {nodes : List Node} (hids : (nodes.map Node.id).Nodup)
    (hbelow : ∀ n ∈ nodes, n.id < next) (hapart : ∀ n ∈ nodes, ∀ m ∈ nodesOf (front ++ back), n.id ≠ m.id)
    (hanchors : nodes.countP (fun n => !n.live) ≤ 1) (head tail : Bool) :
    Threaded next (rethreaded front s back nodes head tail) := by
  have hcount := h.anchors
  have hperm := nodesOf_rethreaded_perm front s back nodes head tail
  refine ⟨?_, fun n hn => ?_, ?_, fun e => ?_⟩
  · rw [(hperm.map Node.id).nodup_iff, map_append, nodup_append]
    refine ⟨hids, h.apart.2.1, fun a ha b hb => ?_⟩
    obtain ⟨n, hn, rfl⟩ := mem_map.mp ha
    obtain ⟨m, hm, rfl⟩ := mem_map.mp hb
    exact hapart n hn m hm
  · rcases mem_append.mp (hperm.subset hn) with hn | hn
    · exact hbelow n hn
    · exact h.below n ((nodesOf_perm front s back).symm.subset (mem_append_right _ hn))
  · simp only [rethreaded, forall_mem_append, forall_mem_cons, forall_mem_map] at hcount ⊢
    exact ⟨hcount.1, hanchors, hcount.2.2⟩
  · have hmarks := h.marks e
    simp only [countP_append, countP_cons] at hmarks
    simp only [rethreaded, countP_append, countP_cons, countP_map_yield, mark_mk]
    cases he : bif e then head else tail with
    | true => simp
    | false => simpa using hmarks

/-- A new node may join a strand. -/
theorem join (h : Threaded next (front ++ s :: back)) {nodes : List Node}
    (hperm : nodes.Perm (⟨next, some i⟩ :: s.nodes)) (head tail : Bool) :
    Threaded (next + 1) (rethreaded front s back nodes head tail) := by
  have hbelow : ∀ n ∈ s.nodes, n.id < next := fun n hn => h.below n (mem_nodesOf.mpr ⟨s, by simp, hn⟩)
  refine (h.mono (Nat.le_succ next)).rethread ?_ ?_ ?_ ?_ head tail
  · rw [(hperm.map Node.id).nodup_iff, map_cons, nodup_cons]
    refine ⟨fun hmem => ?_, h.apart.1⟩
    obtain ⟨n, hn, he⟩ := mem_map.mp hmem
    exact absurd he (Nat.ne_of_lt (hbelow n hn))
  · intro n hn
    rcases mem_cons.mp (hperm.subset hn) with rfl | hn
    · exact Nat.lt_succ_self next
    · exact Nat.lt_succ_of_lt (hbelow n hn)
  · intro n hn m hm
    rcases mem_cons.mp (hperm.subset hn) with rfl | hn
    · exact Nat.ne_of_gt (h.below m ((nodesOf_perm front s back).symm.subset (mem_append_right _ hm)))
    · exact h.apart.2.2 n hn m hm
  · rw [hperm.countP_eq]
    simpa using h.anchors s (by simp)

end Threaded

/-- Node number `id` stands in strand `s`, which has these strands before and behind it. A number that stands
nowhere is that of a removed node, which stands alone. -/
structure Located (ss : List Strand) (id : Nat) (front : List Strand) (s : Strand) (back : List Strand) : Prop where
  strands : ss = front ++ s :: back ∨ ss = back ∧ front = [] ∧ s = ⟨[⟨id, none⟩], false, false⟩
  holds : s.holds id = true
  others : ∀ t ∈ front ++ back, t.holds id = false

/-- A node of a strand locates its number. -/
theorem located_of_mem (h : Threaded next (front ++ s :: back)) (hn : n ∈ s.nodes) :
    Located (front ++ s :: back) n.id front s back := by
  refine ⟨.inl rfl, holds_iff.mpr ⟨n, hn, rfl⟩, fun t ht => Bool.eq_false_iff.mpr fun hc => ?_⟩
  obtain ⟨m, hm, he⟩ := holds_iff.mp hc
  exact h.apart.2.2 n hn m (mem_nodesOf.mpr ⟨t, ht, hm⟩) he.symm

theorem Located.threaded (hl : Located ss id front s back) (h : Threaded next ss) (hid : id < next) :
    Threaded next (front ++ s :: back) := by
  rcases hl.strands with rfl | ⟨rfl, rfl, rfl⟩
  · exact h
  · have hothers : ∀ m ∈ nodesOf ss, id ≠ m.id := by
      intro m hm he
      obtain ⟨t, ht, hm⟩ := mem_nodesOf.mp hm
      have hholds := hl.others t ht
      rw [holds_iff.mpr ⟨m, hm, he.symm⟩] at hholds
      cases hholds
    have hthreaded : Threaded next (rethreaded [] ⟨[], false, false⟩ ss [⟨id, none⟩] false false) :=
      h.blank.rethread (by simp) (by simpa using hid) (by simpa using hothers) (by simp [Node.live]) false false
    rw [rethreaded, map_nil, map_yield_false_false] at hthreaded
    exact hthreaded

/-- A removed node that stands alone is none that can be found. -/
theorem Located.filter_live (hl : Located ss id front s back) :
    (nodesOf (front ++ s :: back)).filter Node.live = (nodesOf ss).filter Node.live := by
  rcases hl.strands with rfl | ⟨rfl, rfl, rfl⟩ <;> rfl

end Strand

open Strand

namespace Listing

variable {l : Listing} {post pre : List Node}

/-- All strands of a listing are in order. -/
abbrev InOrder (l : Listing) : Prop := Threaded l.nextId l.strands

/-! ### What an edit does to the strands -/

/-- What is done to all strands, if it is `g` to all but one. -/
theorem map_strands {f g : Strand → Strand} (h : ∀ t ∈ front ++ back, f t = g t) :
    (front ++ s :: back).map f = front.map g ++ f s :: back.map g := by
  rw [map_append, map_cons, map_congr_left fun t ht => h t (mem_append_left _ ht),
    map_congr_left fun t ht => h t (mem_append_right _ ht)]

/-- Rewiring a node puts other nodes in the place of its strand's. -/
theorem strands_rewire (hl : Located l.strands id front s back) (nodes : List Node) (head tail : Bool) :
    (l.rewire id nodes head tail).strands =
      (rethreaded front s back nodes head tail).filter fun s => !s.nodes.isEmpty := by
  rcases hl.strands with hs | ⟨hs, rfl, rfl⟩
  · have hany : l.strands.any (·.holds id) = true := by
      rw [hs, any_eq_true]
      exact ⟨s, by simp, hl.holds⟩
    simp only [rewire, hany, if_true]
    rw [hs, map_strands (g := yield head tail) fun t ht => by simp [hl.others t ht], if_pos hl.holds, rethreaded]
  · have hany : l.strands.any (·.holds id) = false := by
      rw [hs, any_eq_false]
      exact fun t ht => by simp [hl.others t ht]
    simp only [rewire, hany, Bool.false_eq_true, if_false]
    rw [hs, rethreaded, map_nil, nil_append, Bool.false_or, Bool.false_or]

/-- A place that is found is one in a strand. -/
theorem exists_of_place? (hp : l.place? test = some p) :
    test p.node = true ∧ ∃ front s back, l.strands = front ++ s :: back ∧
      s.nodes = p.before.reverse ++ p.node :: p.after := by
  obtain ⟨s, hs, hfind⟩ := exists_of_findSome?_eq_some hp
  obtain ⟨_, hnodes, hbefore, htest, -⟩ := Place.find_eq_some.mp hfind
  obtain ⟨front, back, hsplit⟩ := append_of_mem hs
  rw [append_nil] at hbefore
  exact ⟨htest, front, s, back, hsplit, by rw [hbefore, reverse_reverse, hnodes]⟩

theorem located_of_place? (h : l.InOrder) (hp : l.place? test = some p) :
    ∃ front s back, l.strands = front ++ s :: back ∧
      Located l.strands p.node.id front s back ∧ s.nodes = p.before.reverse ++ p.node :: p.after := by
  obtain ⟨-, front, s, back, hsplit, hnodes⟩ := exists_of_place? hp
  rw [InOrder, hsplit] at h
  rw [hsplit]
  exact ⟨front, s, back, rfl, located_of_mem h (by simp [hnodes]), hnodes⟩

/-- A node that was not removed is found in its strand. -/
theorem located_of_livePlace? (h : l.InOrder) (hp : l.livePlace? id = some p) :
    ∃ front s back, l.strands = front ++ s :: back ∧ Located l.strands id front s back ∧
      s.nodes = p.before.reverse ++ p.node :: p.after ∧ p.node.id = id ∧ p.node.live = true := by
  have htest := (exists_of_place? hp).1
  rw [Bool.and_eq_true, beq_iff_eq] at htest
  obtain ⟨front, s, back, hsplit, hlocated, hnodes⟩ := located_of_place? h hp
  exact ⟨front, s, back, hsplit, htest.1 ▸ hlocated, hnodes, htest⟩

/-- The nodes around a number in its strand. -/
structure Stood (ss : List Strand) (id : Nat) (front : List Strand) (s : Strand) (back : List Strand)
    (pre : List Node) (n : Node) (post : List Node) : Prop where
  located : Located ss id front s back
  id_eq : n.id = id
  nodes : s.nodes = pre ++ n :: post

theorem exists_stood (h : l.InOrder) (id : Nat) :
    ∃ front s back pre n post, Stood l.strands id front s back pre n post ∧
      l.standing id = ⟨pre.reverse, n, post⟩ := by
  cases hp : l.place? (·.id == id) with
  | some p =>
    have htest : p.node.id = id := beq_iff_eq.mp (exists_of_place? hp).1
    obtain ⟨front, s, back, -, hlocated, hnodes⟩ := located_of_place? h hp
    refine ⟨front, s, back, _, p.node, p.after, ⟨htest ▸ hlocated, htest, hnodes⟩, ?_⟩
    rw [standing, hp, reverse_reverse]
    rfl
  | none =>
    have hno : ∀ t ∈ l.strands, t.holds id = false := by
      intro t ht
      have hnone := findSome?_eq_none_iff.mp hp t ht
      rw [Place.find_eq_none] at hnone
      simpa [holds] using hnone
    refine ⟨[], ⟨[⟨id, none⟩], false, false⟩, l.strands, [], ⟨id, none⟩, [],
      ⟨⟨.inr ⟨rfl, rfl, rfl⟩, ?_, hno⟩, rfl, rfl⟩, ?_⟩
    · exact holds_iff.mpr ⟨⟨id, none⟩, by simp, rfl⟩
    · rw [standing, hp]
      rfl

/-- A new node joins the strand where a number stands, and nothing else changes. -/
structure Joined (l l' : Listing) (i : Instr) (front : List Strand) (s : Strand) (back : List Strand)
    (nodes : List Node) (head tail : Bool) : Prop where
  nextId : l'.nextId = l.nextId + 1
  perm : nodes.Perm (⟨l.nextId, some i⟩ :: s.nodes)
  strands : l'.strands = (rethreaded front s back nodes head tail).filter fun s => !s.nodes.isEmpty

theorem exists_insertBefore (h : l.InOrder) (id : Nat) (i : Instr) :
    ∃ front s back pre n post, Stood l.strands id front s back pre n post ∧
      Joined l (l.insertBefore id i).2 i front s back (pre ++ ⟨l.nextId, some i⟩ :: n :: post) pre.isEmpty false := by
  obtain ⟨front, s, back, pre, n, post, hs, hp⟩ := exists_stood h id
  refine ⟨front, s, back, pre, n, post, hs, rfl, by rw [hs.nodes]; exact perm_middle, ?_⟩
  simp only [insertBefore, hp, reverse_reverse, isEmpty_reverse]
  exact strands_rewire hs.located _ _ _

theorem exists_insertAfter (h : l.InOrder) (id : Nat) (i : Instr) :
    ∃ front s back pre n post, Stood l.strands id front s back pre n post ∧
      Joined l (l.insertAfter id i).2 i front s back (pre ++ n :: ⟨l.nextId, some i⟩ :: post) false post.isEmpty := by
  obtain ⟨front, s, back, pre, n, post, hs, hp⟩ := exists_stood h id
  refine ⟨front, s, back, pre, n, post, hs, rfl, ?_, ?_⟩
  · rw [hs.nodes, append_cons, append_cons pre n post]
    exact perm_middle
  · simp only [insertAfter, hp, reverse_reverse]
    exact strands_rewire hs.located _ _ _

theorem Joined.inOrder {nodes : List Node} (hj : Joined l l' i front s back nodes head tail)
    (hl : Located l.strands id front s back) (h : l.InOrder) (hid : id < l.nextId) : l'.InOrder := by
  rw [InOrder, hj.nextId, hj.strands]
  exact ((hl.threaded h hid).join hj.perm _ _).sublist filter_sublist

theorem inOrder_insertBefore (h : l.InOrder) (hid : id < l.nextId) (i : Instr) : (l.insertBefore id i).2.InOrder := by
  obtain ⟨_, _, _, _, _, _, hs, hj⟩ := exists_insertBefore h id i
  exact hj.inOrder hs.located h hid

theorem inOrder_insertAfter (h : l.InOrder) (hid : id < l.nextId) (i : Instr) : (l.insertAfter id i).2.InOrder := by
  obtain ⟨_, _, _, _, _, _, hs, hj⟩ := exists_insertAfter h id i
  exact hj.inOrder hs.located h hid

section

variable (h : Threaded next (front ++ s :: back))

include h

/-- A strand may get nodes with numbers that it had before. -/
theorem threaded_of_ids {nodes : List Node} (hids : (nodes.map Node.id).Sublist (s.nodes.map Node.id))
    (hanchors : nodes.countP (fun n => !n.live) ≤ 1) (head tail : Bool) :
    Threaded next (rethreaded front s back nodes head tail) := by
  have hsame : ∀ m ∈ nodes, ∃ n ∈ s.nodes, n.id = m.id := by
    intro m hm
    exact mem_map.mp (hids.subset (mem_map_of_mem hm))
  refine h.rethread (hids.nodup h.apart.1) (fun m hm => ?_) (fun m hm k hk => ?_) hanchors _ _
  · obtain ⟨n, hn, he⟩ := hsame m hm
    rw [← he]
    exact h.below n (mem_nodesOf.mpr ⟨s, by simp, hn⟩)
  · obtain ⟨n, hn, he⟩ := hsame m hm
    rw [← he]
    exact h.apart.2.2 n hn k hk

theorem threaded_of_sublist {nodes : List Node} (hsub : nodes.Sublist s.nodes) (head tail : Bool) :
    Threaded next (rethreaded front s back nodes head tail) :=
  threaded_of_ids h (hsub.map _) (Nat.le_trans hsub.countP_le (h.anchors s (by simp))) head tail

/-- A node may get another instruction. -/
theorem threaded_swap (hs : s.nodes = pre ++ n :: post) (hlive : n.live = true) (i : Instr) (head tail : Bool) :
    Threaded next (rethreaded front s back (pre ++ ⟨n.id, some i⟩ :: post) head tail) := by
  have hids : (pre ++ ⟨n.id, some i⟩ :: post).map Node.id = s.nodes.map Node.id := by simp [hs]
  have hcount := h.anchors s (by simp)
  rw [hs] at hcount
  exact threaded_of_ids h (hids ▸ Sublist.refl _) (by simpa [hlive] using hcount) head tail

end

theorem inOrder_remove (h : l.InOrder) (id : Nat) : (l.remove id).2.InOrder := by
  unfold remove
  split
  case h_2 => exact h
  case h_1 p hp =>
    split
    case isTrue => exact h
    case isFalse =>
      obtain ⟨_, s, _, hsplit, hl, hnodes, hid, -⟩ := located_of_livePlace? h hp
      have hstrands : (l.unlink p).strands = (l.rewire p.node.id (p.before.reverse ++ p.after)
          p.before.isEmpty p.after.isEmpty).strands := rfl
      rw [InOrder, hsplit] at h
      have hsub : (p.before.reverse ++ p.after).Sublist s.nodes := by
        rw [hnodes]
        exact (Sublist.refl _).append (sublist_cons_self _ _)
      simp only [InOrder, hstrands, hid, strands_rewire hl]
      exact (threaded_of_sublist h hsub _ _).sublist filter_sublist

theorem inOrder_replace (h : l.InOrder) (id : Nat) (i : Instr) : (l.replace id i).2.InOrder := by
  unfold replace
  split
  case h_2 => exact h
  case h_1 p hp =>
    split
    case isTrue => exact h
    case isFalse =>
      obtain ⟨_, s, _, hsplit, hl, hnodes, rfl, hlive⟩ := located_of_livePlace? h hp
      rw [InOrder, hsplit] at h
      simp only [strands_rewire hl]
      exact (threaded_swap h hnodes hlive i _ _).sublist filter_sublist

/-- At most one strand has a mark that at most one has. -/
theorem eq_false_of_countP {p : Strand → Bool} (h : (front ++ s :: back).countP p ≤ 1) (hs : p s = true) :
    ∀ t ∈ front ++ back, p t = false := by
  have hzero : (front ++ back).countP p = 0 := by
    rw [countP_append, countP_cons, hs] at h
    rw [countP_append]
    simp only [if_true] at h
    omega
  intro t ht
  exact Bool.eq_false_iff.mpr (countP_eq_zero.mp hzero t ht)

/-- What is added goes behind the strand that is added to, or else into one of its own, which is read and added to. -/
theorem exists_push (h : l.InOrder) (i : Instr) :
    ∃ front s back head,
      (l.strands = front ++ s :: back ∧ s.mark false = true ∧ head = false ∨
        l.strands = back ∧ (∀ t ∈ back, t.mark false = false) ∧ front = [] ∧ s = ⟨[], false, false⟩ ∧ head = true) ∧
      (l.push i).2.strands = rethreaded front s back (s.nodes ++ [⟨l.nextId, some i⟩]) head true := by
  have hstrands : (l.push i).2.strands =
      if l.strands.any (·.isTail) then
        l.strands.map fun t => if t.isTail then { t with nodes := t.nodes ++ [⟨l.nextId, some i⟩] } else t
      else ⟨[⟨l.nextId, some i⟩], true, true⟩ :: l.strands.map (yield true true) := rfl
  rw [hstrands]
  by_cases hany : l.strands.any (·.isTail) = true
  · obtain ⟨s, hs, htail⟩ := any_eq_true.mp hany
    obtain ⟨front, back, hsplit⟩ := append_of_mem hs
    refine ⟨front, s, back, false, .inl ⟨hsplit, htail, rfl⟩, ?_⟩
    rw [InOrder, hsplit] at h
    have hothers : ∀ t ∈ front ++ back, t.isTail = false := eq_false_of_countP (h.marks false) htail
    have hsame : ∀ t ∈ front ++ back, t.yield false true = t := by
      intro t ht
      have hno := hothers t ht
      cases t
      cases hno
      simp [yield]
    rw [if_pos hany, hsplit, map_strands (g := yield false true) fun t ht => by simp [hothers t ht, hsame t ht],
      if_pos htail, rethreaded, Bool.or_false, Bool.or_true, ← htail]
  · refine ⟨[], ⟨[], false, false⟩, l.strands, true, .inr ⟨rfl, by simpa [mark] using hany, rfl, rfl, rfl⟩, ?_⟩
    rw [if_neg hany]
    rfl

theorem inOrder_push (h : l.InOrder) (i : Instr) : (l.push i).2.InOrder := by
  obtain ⟨_, s, _, head, hs, hstrands⟩ := exists_push h i
  rw [InOrder, hstrands]
  have hnew := perm_append_singleton (⟨l.nextId, some i⟩ : Node) s.nodes
  rcases hs with ⟨hsplit, -⟩ | ⟨rfl, -, rfl, rfl, -⟩
  · rw [InOrder, hsplit] at h
    exact h.join hnew head true
  · exact h.blank.join hnew head true

theorem inOrder_redirect (h : l.InOrder) (f : Label → Label) : (l.redirect f).2.InOrder := by
  unfold redirect
  dsimp only
  split
  case isTrue => exact h
  case isFalse =>
    generalize hrename : (fun n : Node => { n with content := n.content.map (Instruction.mapTargets f) }) = rename
    have hid : ∀ n, (rename n).id = n.id := fun n => by rw [← hrename]
    have hlive : ∀ n, (rename n).live = n.live := fun n => by rw [← hrename]; simp [Node.live]
    have hnodes : nodesOf (l.strands.map fun s => { s with nodes := s.nodes.map rename }) =
        (nodesOf l.strands).map rename := by
      simp [nodesOf, flatMap_map, map_flatMap]
    refine ⟨?_, ?_, ?_, ?_⟩
    · rw [hnodes]
      simpa [Function.comp_def, hid] using h.ids
    · rw [hnodes]
      intro m hm
      obtain ⟨n, hn, rfl⟩ := mem_map.mp hm
      rw [hid]
      exact h.below n hn
    · intro t ht
      obtain ⟨s, hs, rfl⟩ := mem_map.mp ht
      simpa [Function.comp_def, hlive] using h.anchors s hs
    · intro e
      have hmark : (mark e ∘ fun s => { s with nodes := s.nodes.map rename }) = mark e := by
        cases e <;> rfl
      rw [countP_map, hmark]
      exact h.marks e

/-- The nodes of the strands with a mark are those of the one that has it. -/
theorem nodesOf_filter_of_mark (h : (front ++ s :: back).countP (mark e) ≤ 1) (hs : s.mark e = true) :
    nodesOf ((front ++ s :: back).filter (mark e)) = s.nodes := by
  have hnone : (front ++ back).filter (mark e) = [] := by
    rw [filter_eq_nil_iff]
    intro t ht
    simp [eq_false_of_countP h hs t ht]
  rw [filter_append, append_eq_nil_iff] at hnone
  rw [filter_append, filter_cons_of_pos hs, hnone.1, hnone.2]
  simp [nodesOf]

/-- The nodes of the first strand with a mark, as those of all strands that have it. -/
theorem nodesOf_find?_mark (h : ss.countP (mark e) ≤ 1) :
    ((ss.find? (mark e)).map Strand.nodes).getD [] = nodesOf (ss.filter (mark e)) := by
  rw [countP_eq_length_filter] at h
  rw [← head?_filter]
  cases hmarked : ss.filter (mark e) with
  | nil => rfl
  | cons s ss =>
    rw [hmarked, length_cons] at h
    obtain rfl : ss = [] := length_eq_zero_iff.mp (by omega)
    simp [nodesOf]

theorem nodes_eq_nodesOf (h : l.InOrder) : l.nodes = nodesOf (l.strands.filter (mark true)) := by
  rw [nodes_eq_getD]
  exact nodesOf_find?_mark (h.marks true)

/-- Keeping some nodes of the strand that is read. -/
theorem exists_withNodes (h : l.InOrder) (hne : l.nodes ≠ []) :
    ∃ front s back, l.strands = front ++ s :: back ∧ s.isHead = true ∧ l.nodes = s.nodes ∧ ∀ nodes : List Node,
      (l.withNodes nodes).strands = (rethreaded front s back nodes false
        ((nodes.getLast?.map Node.id) != (l.nodes.getLast?.map Node.id))).filter fun s => !s.nodes.isEmpty := by
  cases hfind : l.strands.find? (·.isHead) with
  | none =>
    rw [nodes_eq_getD, hfind] at hne
    exact absurd rfl hne
  | some s =>
    have hhead : s.isHead = true := by simpa using find?_some hfind
    obtain ⟨front, back, hsplit⟩ := append_of_mem (mem_of_find?_eq_some hfind)
    have hothers : ∀ t ∈ front ++ back, t.isHead = false := eq_false_of_countP (hsplit ▸ h.marks true) hhead
    refine ⟨front, s, back, hsplit, hhead, by rw [nodes_eq_getD, hfind]; rfl, fun nodes => ?_⟩
    generalize htail : ((nodes.getLast?.map Node.id) != (l.nodes.getLast?.map Node.id)) = tail
    rw [withNodes, htail]
    rw [hsplit, map_strands (g := yield false tail) fun t ht => by simp [hothers t ht], rethreaded, hhead]
    rfl

theorem inOrder_keep (h : l.InOrder) (test : Node → Bool) : (l.keep test).2.InOrder := by
  unfold keep
  split
  case h_1 => exact h
  case h_2 hgone =>
    obtain ⟨_, s, _, hsplit, -, hnodes, hstrands⟩ := exists_withNodes h fun hnil => hgone (by rw [hnil]; rfl)
    rw [InOrder, hsplit] at h
    have hsub : (l.nodes.filter test).Sublist s.nodes := by
      rw [hnodes]
      exact filter_sublist
    simp only [hstrands]
    exact (threaded_of_sublist h hsub false _).sublist filter_sublist

/-! ### Listings that can be reached -/

/-- The listings that edits lead to. A number that is inserted next to was given out before, but what it names
may have been removed since. -/
inductive Reached : Listing → Prop
  | empty : Reached {}
  | push {l : Listing} (h : Reached l) (i : Instr) : Reached (l.push i).2
  | newLabel {l l' : Listing} {name : Label} (h : Reached l) (hl : l.newLabel = .ok (name, l')) : Reached l'
  | insertBefore {l : Listing} {id : Nat} (h : Reached l) (hid : id < l.nextId) (i : Instr) :
    Reached (l.insertBefore id i).2
  | insertAfter {l : Listing} {id : Nat} (h : Reached l) (hid : id < l.nextId) (i : Instr) :
    Reached (l.insertAfter id i).2
  | labelAt {l l' : Listing} {id : Nat} {name : Label} (h : Reached l) (hid : id < l.nextId)
    (hl : l.labelAt id = .ok (name, l')) : Reached l'
  | remove {l : Listing} (h : Reached l) (id : Nat) : Reached (l.remove id).2
  | replace {l : Listing} (h : Reached l) (id : Nat) (i : Instr) : Reached (l.replace id i).2
  | redirect {l : Listing} (h : Reached l) (f : Label → Label) : Reached (l.redirect f).2
  | keep {l : Listing} (h : Reached l) (test : Node → Bool) : Reached (l.keep test).2

/-- A label is found, or inserted before the node. -/
theorem labelAt_cases {name : Label} (h : l.labelAt id = .ok (name, l')) :
    l' = l ∨ l' = (l.insertBefore id (.label l.nextLabel)).2 := by
  unfold labelAt at h
  dsimp only at h
  split at h
  · cases h
    exact .inl rfl
  · obtain ⟨⟨_, _⟩, hgiven, h⟩ := bind_eq_ok.mp h
    obtain ⟨-, rfl, rfl⟩ := newLabel_eq_ok.mp hgiven
    cases h
    exact .inr (congrArg Prod.snd (insertBefore_given l id))

/-- Whatever was done to a listing, its strands are in order. -/
theorem Reached.inOrder (h : l.Reached) : l.InOrder := by
  induction h with
  | empty => exact ⟨by simp [nodesOf], by simp [nodesOf], by simp, by simp⟩
  | push h i ih => exact inOrder_push ih i
  | newLabel h hl ih =>
    obtain ⟨-, -, rfl⟩ := newLabel_eq_ok.mp hl
    exact ih
  | insertBefore h hid i ih => exact inOrder_insertBefore ih hid i
  | insertAfter h hid i ih => exact inOrder_insertAfter ih hid i
  | labelAt h hid hl ih =>
    rcases labelAt_cases hl with rfl | rfl
    · exact ih
    · exact inOrder_insertBefore ih hid _
  | remove h id ih => exact inOrder_remove ih id
  | replace h id i ih => exact inOrder_replace ih id i
  | redirect h f ih => exact inOrder_redirect ih f
  | keep h test ih => exact inOrder_keep ih test

/-! ### What is read -/

theorem nodesOf_filter_map_yield (hno : (bif e then head else tail) = false) (ss : List Strand) :
    nodesOf ((ss.map (Strand.yield head tail)).filter (mark e)) = nodesOf (ss.filter (mark e)) := by
  have hcomp : mark e ∘ yield head tail = mark e := by
    funext t
    simp [mark_yield, hno]
  rw [filter_map, hcomp, nodesOf_map_yield]

/-- What has a mark after a strand got other nodes: they have, if the strand has it or gets it. -/
theorem nodesOf_rethreaded {nodes : List Node} (h : Threaded next (rethreaded front s back nodes head tail))
    (e : Bool) :
    nodesOf ((rethreaded front s back nodes head tail).filter (mark e)) =
      if s.mark e || bif e then head else tail then nodes else nodesOf ((front ++ back).filter (mark e)) := by
  have hmark := mark_mk e head tail s nodes
  cases hs : s.mark e || bif e then head else tail with
  | true => exact nodesOf_filter_of_mark (h.marks e) (hmark.trans hs)
  | false =>
    obtain ⟨-, hno⟩ := Bool.or_eq_false_iff.mp hs
    rw [rethreaded, filter_append, filter_cons_of_neg (by simp [hmark, hs]), nodesOf_append,
      nodesOf_filter_map_yield hno, nodesOf_filter_map_yield hno, ← nodesOf_append, ← filter_append]
    rfl

/-- What is read after a strand got other nodes: they are, if the strand is read or becomes so. -/
theorem nodes_rethreaded {nodes : List Node} (h : Threaded l'.nextId (rethreaded front s back nodes head tail))
    (hl' : l'.strands = (rethreaded front s back nodes head tail).filter fun s => !s.nodes.isEmpty) :
    l'.nodes = if s.mark true || head then nodes else nodesOf ((front ++ back).filter (mark true)) := by
  have hl := h.sublist (filter_sublist (p := fun s => !s.nodes.isEmpty))
  rw [← hl'] at hl
  rw [nodes_eq_nodesOf hl, hl', filter_comm, nodesOf_filter_nonempty]
  exact nodesOf_rethreaded h true

/-- What has a mark where a number stands. -/
theorem nodesOf_of_located (h : l.InOrder) (hid : id < l.nextId) (hl : Located l.strands id front s back) (e : Bool) :
    nodesOf (l.strands.filter (mark e)) =
      if s.mark e then s.nodes else nodesOf ((front ++ back).filter (mark e)) := by
  have hmarks := (hl.threaded h hid).marks e
  cases hs : s.mark e with
  | true =>
    rcases hl.strands with hstrands | ⟨-, -, rfl⟩
    · rw [hstrands]
      exact nodesOf_filter_of_mark hmarks hs
    · cases e <;> cases hs
  | false =>
    rcases hl.strands with hstrands | ⟨hstrands, rfl, -⟩
    · rw [hstrands, filter_append, filter_cons_of_neg (by simp [hs]), ← filter_append]
      rfl
    · rw [hstrands]
      rfl

/-! ### What can be found -/

theorem size_eq (l : Listing) : l.size = (nodesOf l.strands).countP Node.live := by
  unfold size
  induction l.strands with
  | nil => rfl
  | cons s _ ih => rw [foldr_cons, ih, nodesOf_cons, countP_append]

theorem of_livePlace? (hp : l.livePlace? id = some p) :
    (p.node.id = id ∧ p.node.live = true) ∧ p.node ∈ nodesOf l.strands := by
  obtain ⟨htest, _, s, _, hsplit, hnodes⟩ := exists_of_place? hp
  rw [Bool.and_eq_true, beq_iff_eq] at htest
  exact ⟨htest, by simp [hsplit, hnodes]⟩

theorem contains_iff : l.contains k = true ↔ ∃ n ∈ nodesOf l.strands, n.id = k ∧ n.live = true := by
  cases hp : l.livePlace? k with
  | some p =>
    obtain ⟨htest, hmem⟩ := of_livePlace? hp
    refine ⟨fun _ => ⟨p.node, hmem, htest⟩, fun _ => ?_⟩
    rw [contains, get?, hp]
    exact htest.2
  | none =>
    refine ⟨fun h => ?_, fun ⟨n, hn, hid, hlive⟩ => ?_⟩
    · rw [contains, get?, hp] at h
      cases h
    · obtain ⟨s, hs, hn⟩ := mem_nodesOf.mp hn
      have hnone := findSome?_eq_none_iff.mp hp s hs
      rw [Place.find_eq_none] at hnone
      simpa [hid, hlive] using hnone n hn

/-- A node that was not removed is found by its number, with what it holds. -/
theorem get?_eq_some (h : ((nodesOf l.strands).map Node.id).Nodup) :
    l.get? k = some i ↔ ⟨k, some i⟩ ∈ nodesOf l.strands := by
  have hfound : ∀ {j}, l.get? k = some j → ⟨k, some j⟩ ∈ nodesOf l.strands := by
    intro j hj
    obtain ⟨p, hp, hcontent⟩ := Option.bind_eq_some_iff.mp hj
    obtain ⟨htest, hmem⟩ := of_livePlace? hp
    rwa [← htest.1, ← hcontent]
  refine ⟨hfound, fun hmem => ?_⟩
  have hcontains := contains_iff.mpr ⟨_, hmem, rfl, rfl⟩
  obtain ⟨j, hj⟩ := Option.isSome_iff_exists.mp hcontains
  have heq := eq_of_id_eq h hmem (hfound hj) rfl
  rw [hj]
  cases heq
  rfl

end Listing

end Untangle
