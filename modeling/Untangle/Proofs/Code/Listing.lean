import Mathlib.Data.List.Basic
import Mathlib.Data.List.Nodup
import Untangle.Code.Body

/-!
# Listings as plain sequences

As long as only nodes that are still there are inserted next to, a listing is one run of nodes. This
module says what each look-up and each edit does to that run. A run of nodes is written `ns`, and a
place in it as `pre ++ n :: post`.

A listing is *sound* if it is one run of nodes that were not removed, no two of which have the same
number, and if the numbers and labels that will be given out next are not in use.
-/

namespace Untangle

open List Instruction

variable {τ σ : Type} {i : Instruction τ} {l : Label} {ns pre post : List Node} {n : Node} {test : Node → Bool}
  {α : Type} {pre' post' before : List Node} {p : Place} {name : Label} {f : Label → Label}

/-! ### Runs of nodes -/

/-- The labels that a run of nodes binds, in order. -/
def labelsOf (ns : List Node) : List Label := ns.filterMap (·.instr.label?)

/-- The labels that the jumps and switches of a run of nodes name, with repetitions. -/
def targetsOf (ns : List Node) : List Label := ns.flatMap (·.instr.targets)

@[simp] theorem labelsOf_nil : labelsOf [] = [] := rfl

@[simp] theorem labelsOf_append (ns ms : List Node) : labelsOf (ns ++ ms) = labelsOf ns ++ labelsOf ms :=
  filterMap_append

theorem labelsOf_cons (n : Node) (ns : List Node) : labelsOf (n :: ns) = n.instr.label?.toList ++ labelsOf ns := by
  cases h : n.instr.label? <;> simp [labelsOf, h]

@[simp] theorem targetsOf_append (ns ms : List Node) :
    targetsOf (ns ++ ms) = targetsOf ns ++ targetsOf ms := flatMap_append

@[simp] theorem targetsOf_cons (n : Node) (ns : List Node) :
    targetsOf (n :: ns) = n.instr.targets ++ targetsOf ns := flatMap_cons

/-- What binds a label is that label. -/
theorem Instruction.label?_eq_some : i.label? = some l ↔ i = .label l := by
  cases i <;> simp [label?]

theorem mem_labelsOf : l ∈ labelsOf ns ↔ ∃ n ∈ ns, n.instr = .label l := by
  simp [labelsOf, label?_eq_some]

theorem exists_of_mem_labelsOf (h : l ∈ labelsOf ns) : ∃ pre a post, ns = pre ++ a :: post ∧ a.instr = .label l := by
  obtain ⟨a, ha, hla⟩ := mem_labelsOf.mp h
  obtain ⟨pre, post, hns⟩ := append_of_mem ha
  exact ⟨pre, a, post, hns, hla⟩

theorem mem_targetsOf : l ∈ targetsOf ns ↔ ∃ n ∈ ns, l ∈ n.instr.targets := by
  simp [targetsOf]

/-- What executes something binds no label. -/
theorem Instruction.label?_of_isReal (h : i.isReal = true) : i.label? = none := by
  cases i <;> simp_all [label?, isReal]

/-- Only what executes something jumps. -/
theorem Instruction.targets_of_not_isReal (h : i.isReal = false) : i.targets = [] := by
  cases i <;> simp_all [targets, isReal]

@[simp] theorem Node.instr_some (id : Nat) (i : Instr) : (⟨id, some i⟩ : Node).instr = i := rfl

@[simp] theorem Node.live_some (id : Nat) (i : Instr) : (⟨id, some i⟩ : Node).live = true := rfl

/-- A node that was not removed holds its instruction. -/
theorem Node.content_of_live (h : n.live = true) : n.content = some n.instr := by
  cases n with
  | mk _ content => cases content <;> simp_all [live]

/-- A node whose content is known. -/
theorem Node.instr_of_content {i : Instr} (h : n.content = some i) : n.instr = i := by
  simp [instr, h]

/-- Two nodes of one run with the same number are the same node. -/
theorem eq_of_id_eq (h : (ns.map Node.id).Nodup) {m : Node} (hn : n ∈ ns) (hm : m ∈ ns) (he : n.id = m.id) :
    n = m := inj_on_of_nodup_map h hn hm he

/-- Before a node of a run there is none with its number. -/
theorem id_not_mem_of_nodup (h : ((pre ++ n :: post).map Node.id).Nodup) : ∀ m ∈ pre, m.id ≠ n.id := by
  intro m hm he
  rw [map_append, nodup_append] at h
  exact h.2.2 m.id (mem_map_of_mem hm) n.id (by simp) he

/-! ### Nodes told apart -/

/-- What stands in two runs after each other stands in one of them. -/
theorem split_append {front back pre post : List α} {x : α} (h : front ++ back = pre ++ x :: post) :
    (∃ mid, front = pre ++ x :: mid ∧ post = mid ++ back) ∨ ∃ mid, back = mid ++ x :: post ∧ pre = front ++ mid := by
  rcases append_eq_append_iff.mp h with ⟨mid, rfl, hback⟩ | ⟨mid, rfl, hpost⟩
  · exact .inr ⟨mid, hback, rfl⟩
  · cases mid with
    | nil => exact .inr ⟨[], hpost.symm, by simp⟩
    | cons y mid =>
      obtain ⟨rfl, rfl⟩ := cons.inj hpost
      exact .inl ⟨mid, rfl, rfl⟩

/-- Of two places in a run, one is before the other, or they are the same. -/
theorem split_cons {front back pre post : List α} {x y : α} (h : front ++ y :: back = pre ++ x :: post) :
    (∃ mid, front = pre ++ x :: mid ∧ post = mid ++ y :: back) ∨ (front = pre ∧ y = x ∧ back = post) ∨
      ∃ mid, back = mid ++ x :: post ∧ pre = front ++ y :: mid := by
  rcases split_append h with hfront | ⟨mid, hback, rfl⟩
  · exact .inl hfront
  · cases mid with
    | nil =>
      obtain ⟨rfl, rfl⟩ := cons.inj hback
      exact .inr (.inl ⟨by simp, rfl, rfl⟩)
    | cons z mid =>
      obtain ⟨rfl, rfl⟩ := cons.inj hback
      exact .inr (.inr ⟨mid, rfl, rfl⟩)

/-- A run is cut in one way at the entry with a key that no other entry has. -/
theorem split_unique {β : Type} {key : α → Option β} {xs pre post pre' post' : List α} {a a' : α} {k : β}
    (h : (xs.filterMap key).Nodup) (hxs : xs = pre ++ a :: post) (hxs' : xs = pre' ++ a' :: post')
    (ha : key a = some k) (ha' : key a' = some k) : pre = pre' ∧ a = a' ∧ post = post' := by
  have htwice : ∀ front mid back x x', xs = front ++ x :: (mid ++ x' :: back) → key x = some k → key x' = some k →
      False := by
    rintro front mid back x x' rfl hx hx'
    simp [filterMap_cons_some hx, filterMap_cons_some hx', nodup_append] at h
  rcases split_cons (hxs.symm.trans hxs') with ⟨mid, rfl, rfl⟩ | hsame | ⟨mid, rfl, rfl⟩
  · exact (htwice _ _ _ _ _ hxs' ha' ha).elim
  · exact hsame
  · exact (htwice _ _ _ _ _ hxs ha ha').elim

theorem pair_sublist_append {xs ys : List α} {x y : α} (hx : x ∈ xs) (hy : y ∈ ys) : [x, y].Sublist (xs ++ ys) :=
  (singleton_sublist.mpr hx).append (singleton_sublist.mpr hy)

/-- Nodes with numbers of their own, which bind no label twice. -/
structure Distinct (ns : List Node) : Prop where
  ids : (ns.map Node.id).Nodup
  labels : (labelsOf ns).Nodup

namespace Distinct

variable (h : Distinct ns)

include h

theorem nodup : ns.Nodup := Nodup.of_map _ h.ids

theorem split_node (hns : ns = pre ++ n :: post) (hns' : ns = pre' ++ n :: post') : pre = pre' ∧ post = post' := by
  have hkeys : (ns.filterMap fun n => some n.id).Nodup := by
    rw [filterMap_eq_map']
    exact h.ids
  obtain ⟨hpre, -, hpost⟩ := split_unique hkeys hns hns' rfl rfl
  exact ⟨hpre, hpost⟩

theorem split_label {a a' : Node} (hns : ns = pre ++ a :: post) (ha : a.instr = .label l)
    (hns' : ns = pre' ++ a' :: post') (ha' : a'.instr = .label l) : pre = pre' ∧ a = a' ∧ post = post' :=
  split_unique h.labels hns hns' (label?_eq_some.mpr ha) (label?_eq_some.mpr ha')

theorem sublist {ns' : List Node} (hsub : ns'.Sublist ns) : Distinct ns' where
  ids := (hsub.map _).nodup h.ids
  labels := (hsub.filterMap _).nodup h.labels

/-- What comes behind a node stands in the rest. -/
theorem mem_of_pair_sublist {x y : Node} (hns : ns = pre ++ x :: post) (hsub : [x, y].Sublist ns) : y ∈ post := by
  obtain ⟨_, after, hsplit, hx, hy⟩ := cons_sublist_iff.mp hsub
  obtain ⟨front, back, rfl⟩ := append_of_mem hx
  have hns' : ns = front ++ x :: (back ++ after) := by simpa using hsplit
  obtain ⟨-, rfl⟩ := h.split_node hns hns'
  exact mem_append_right _ (singleton_sublist.mp hy)

end Distinct

/-! ### Places -/

/-- A place is found where the first node stands that passes the test. -/
theorem Place.find_eq_some :
    Place.find test before ns = some p ↔
      ∃ pre, ns = pre ++ p.node :: p.after ∧ p.before = pre.reverse ++ before ∧ test p.node = true ∧
        ∀ n ∈ pre, test n = false := by
  induction ns generalizing before with
  | nil => simp [find]
  | cons n _ ih =>
    rw [find]
    by_cases ht : test n
    · rw [if_pos ht]
      constructor
      · intro h
        cases h
        exact ⟨[], rfl, rfl, ht, by simp⟩
      · rintro ⟨pre, hns, hb, hp, hall⟩
        cases pre with
        | nil =>
          cases p
          simp_all
        | cons m pre =>
          simp only [cons_append, cons.injEq] at hns
          have := hall m (by simp)
          rw [← hns.1, ht] at this
          cases this
    · rw [if_neg ht, ih]
      constructor
      · rintro ⟨pre, hr, hb, hp, hall⟩
        refine ⟨n :: pre, by rw [hr]; rfl, by rw [hb]; simp, hp, ?_⟩
        intro m hm
        rcases mem_cons.mp hm with rfl | hm
        · simpa using ht
        · exact hall m hm
      · rintro ⟨pre, hns, hb, hp, hall⟩
        cases pre with
        | nil =>
          simp only [nil_append, cons.injEq] at hns
          rw [hns.1] at ht
          exact absurd hp ht
        | cons m pre =>
          simp only [cons_append, cons.injEq] at hns
          exact ⟨pre, hns.2, by rw [hb, hns.1]; simp, hp, fun k hk => hall k (by simp [hk])⟩

theorem Place.find_eq_none : Place.find test before ns = none ↔ ∀ n ∈ ns, test n = false := by
  induction ns generalizing before with
  | nil => simp [find]
  | cons n _ ih =>
    rw [find]
    by_cases ht : test n
    · simp [ht]
    · simp [ht, ih]

/-- The place of a node in a run that has no other node passing the test before it. -/
theorem Place.find_append (hn : test n = true) (hpre : ∀ m ∈ pre, test m = false) :
    Place.find test [] (pre ++ n :: post) = some ⟨pre.reverse, n, post⟩ :=
  find_eq_some.mpr ⟨pre, rfl, by simp, hn, hpre⟩

namespace Listing

variable {l : Listing}

/-! ### One run of nodes -/

/-- The strands of a listing that is one run of nodes. -/
def single (ns : List Node) : List Strand := if ns.isEmpty then [] else [⟨ns, true, true⟩]

theorem nodes_of_strands (h : l.strands = single ns) : l.nodes = ns := by
  unfold nodes
  rw [h, single]
  cases ns <;> simp

theorem Intact.strands (h : l.Intact) : l.strands = single l.nodes := by
  obtain ⟨hs | ⟨_, hne, hs⟩, -⟩ := h
  · rw [nodes, hs]
    rfl
  · rw [nodes, hs]
    simp [single, hne]

theorem intact_of_strands (h : l.strands = single ns) (hl : ∀ n ∈ ns, n.live = true) : l.Intact := by
  refine ⟨?_, by rwa [nodes_of_strands h]⟩
  cases ns with
  | nil => exact .inl h
  | cons n ns => exact .inr ⟨n :: ns, by simp, h⟩

theorem Intact.live (h : l.Intact) (hn : n ∈ l.nodes) : n.live = true := h.2 n hn

/-! ### Looking up -/

theorem place?_of_strands (h : l.strands = single ns) (test : Node → Bool) : l.place? test = Place.find test [] ns := by
  rw [place?, h, single]
  cases ns with
  | nil => rfl
  | cons n ns => cases hf : Place.find test [] (n :: ns) <;> simp [hf]

/-- Where a node of the run stands. -/
theorem livePlace?_of_strands (h : l.strands = single (pre ++ n :: post)) (hn : n.live = true)
    (hpre : ∀ m ∈ pre, m.id ≠ n.id) : l.livePlace? n.id = some ⟨pre.reverse, n, post⟩ := by
  rw [livePlace?, place?_of_strands h]
  exact Place.find_append (by simp [hn]) fun m hm => by simp [hpre m hm]

/-- A number that no node of the run has leads nowhere. -/
theorem livePlace?_eq_none (h : l.strands = single ns) {id : Nat} (hid : ∀ n ∈ ns, n.id ≠ id) :
    l.livePlace? id = none := by
  rw [livePlace?, place?_of_strands h, Place.find_eq_none]
  exact fun n hn => by simp [hid n hn]

/-- A label is at the first node that binds it. -/
theorem labelPlace?_eq_some (h : l.Intact) :
    l.labelPlace? name = some p ↔
      ∃ pre, l.nodes = pre ++ p.node :: p.after ∧ p.before = pre.reverse ∧
        p.node.content = some (.label name) ∧ name ∉ labelsOf pre := by
  rw [labelPlace?, place?_of_strands h.strands, Place.find_eq_some]
  constructor
  · rintro ⟨pre, hns, hb, hp, hall⟩
    refine ⟨pre, hns, by simpa using hb, by simpa using hp, fun hmem => ?_⟩
    obtain ⟨n, hn, hl⟩ := mem_labelsOf.mp hmem
    have hlive := h.live (n := n) (by rw [hns]; simp [hn])
    have hc := Node.content_of_live hlive
    rw [hl] at hc
    simpa [hc] using hall n hn
  · rintro ⟨pre, hns, hb, hp, hno⟩
    refine ⟨pre, hns, by simpa using hb, by simp [hp], fun n hn => ?_⟩
    by_contra hc
    simp only [Bool.not_eq_false, beq_iff_eq] at hc
    exact hno (mem_labelsOf.mpr ⟨n, hn, Node.instr_of_content hc⟩)

/-- The node found from a label on is one of the run. -/
theorem mem_of_realAt? (h : l.Intact) (hn : l.realAt? name = some n) : n ∈ l.nodes := by
  unfold realAt? fromLabel at hn
  split at hn
  · rename_i p hp
    obtain ⟨_, hns, -⟩ := (labelPlace?_eq_some h).mp hp
    rw [hns]
    exact mem_append_right _ (mem_of_find?_eq_some hn)
  · cases hn

/-! ### Edits -/

theorem withNodes_strands (h : l.Intact) (hn : l.nodes = [] → ns = []) : (l.withNodes ns).strands = single ns := by
  obtain ⟨hs | ⟨_, -, hs⟩, -⟩ := h
  · have hnil : ns = [] := hn (nodes_of_strands (by rw [hs]; rfl))
    simp [withNodes, hs, hnil, single]
  · cases ns <;> simp [withNodes, hs, single]

theorem nodes_eq_getD (l : Listing) : l.nodes = ((l.strands.find? (·.isHead)).map Strand.nodes).getD [] := by
  unfold nodes
  cases l.strands.find? (·.isHead) <;> rfl

/-- Nodes that take the place of those that are read are read, whatever else is in the listing. -/
theorem nodes_withNodes (hn : l.nodes = [] → ns = []) : (l.withNodes ns).nodes = ns := by
  generalize htail : ((ns.getLast?.map Node.id) != (l.nodes.getLast?.map Node.id)) = tail
  let settle (s : Strand) : Strand := if s.isHead then ⟨ns, true, s.isTail || tail⟩ else s.yield false tail
  have hstrands : (l.withNodes ns).strands = (l.strands.map settle).filter fun s => !s.nodes.isEmpty := by
    rw [withNodes, htail]
  have hread : ∀ s, s.isHead = true → (settle s).nodes = ns := by
    intro s hs
    simp [settle, hs]
  -- the strand that is read stays the first of its kind, unless nothing is left of it
  have htest : ((fun s => decide ((!s.nodes.isEmpty) = true ∧ s.isHead = true)) ∘ settle) =
      fun s => decide (ns ≠ [] ∧ s.isHead = true) := by
    funext s
    by_cases hs : s.isHead = true <;> simp [settle, Strand.yield, hs]
  rw [nodes_eq_getD, hstrands, find?_filter, find?_map, htest]
  by_cases hempty : ns = []
  · have hnone : l.strands.find? (fun s => decide (ns ≠ [] ∧ s.isHead = true)) = none := by
      simp [hempty]
    rw [hnone, hempty]
    rfl
  · simp only [ne_eq, hempty, not_false_eq_true, true_and, Bool.decide_eq_true]
    cases hs : l.strands.find? (·.isHead) with
    | none => exact absurd (hn (by rw [nodes_eq_getD, hs]; rfl)) hempty
    | some s => exact hread s (find?_some hs)

section

variable (h : l.strands = single (pre ++ n :: post))

include h

theorem rewire_strands (ns : List Node) (head tail : Bool) : (l.rewire n.id ns head tail).strands = single ns := by
  have hs : l.strands = [⟨pre ++ n :: post, true, true⟩] := by rw [h, single]; simp
  have hh : Strand.holds ⟨pre ++ n :: post, true, true⟩ n.id = true := by simp [Strand.holds]
  cases ns <;> simp [rewire, hs, single, hh]

section

variable (hpre : ∀ m ∈ pre, m.id ≠ n.id)

include hpre

theorem standing_of_strands : l.standing n.id = ⟨pre.reverse, n, post⟩ := by
  rw [standing, place?_of_strands h, Place.find_append (by simp) (fun m hm => by simp [hpre m hm])]
  rfl

theorem insertBefore_strands (i : Instr) :
    (l.insertBefore n.id i).2.strands = single (pre ++ ⟨l.nextId, some i⟩ :: n :: post) := by
  have hs : (l.alloc i).2.strands = single (pre ++ n :: post) := h
  simp only [insertBefore, standing_of_strands h hpre, reverse_reverse]
  exact rewire_strands hs _ _ _

theorem insertAfter_strands (i : Instr) :
    (l.insertAfter n.id i).2.strands = single (pre ++ n :: ⟨l.nextId, some i⟩ :: post) := by
  have hs : (l.alloc i).2.strands = single (pre ++ n :: post) := h
  simp only [insertAfter, standing_of_strands h hpre, reverse_reverse]
  exact rewire_strands hs _ _ _

end

end

theorem push_strands (h : l.strands = single ns) (i : Instr) :
    (l.push i).2.strands = single (ns ++ [⟨l.nextId, some i⟩]) := by
  cases ns with
  | nil => simp [push, alloc, h, single]
  | cons n ns => simp [push, alloc, h, single]

theorem insertBefore_nextLabel (l : Listing) (id : Nat) (i : Instr) :
    (l.insertBefore id i).2.nextLabel = labelAbove l.nextLabel i := rfl

theorem newLabel_eq_ok {l' : Listing} : l.newLabel = .ok (name, l') ↔
    l.nextLabel < 4294967295 ∧ name = l.nextLabel ∧ l' = { l with nextLabel := l.nextLabel + 1 } := by
  by_cases hleft : l.nextLabel < 4294967295
  · simp [newLabel, hleft, eq_comm]
  · simp [newLabel, hleft]

theorem labelAbove_given (next : Label) : labelAbove (next + 1) (.label next) = labelAbove next (.label next) := by
  simp [labelAbove]

/-- A label that was just given out is placed as the one that comes next would be. -/
theorem insertBefore_given (l : Listing) (id : Nat) :
    { l with nextLabel := l.nextLabel + 1 }.insertBefore id (.label l.nextLabel) =
      l.insertBefore id (.label l.nextLabel) := by
  simp only [insertBefore, alloc, labelAbove_given]
  rfl

theorem replace_strands {i : Instr} (h : l.strands = single (pre ++ n :: post)) (hn : n.live = true)
    (hpre : ∀ m ∈ pre, m.id ≠ n.id) (hl : n.isLabel = false) (hi : i.label? = none) :
    (l.replace n.id i).2.strands = single (pre ++ ⟨n.id, some i⟩ :: post) := by
  simp only [replace, livePlace?_of_strands h hn hpre, hl, hi, reverse_reverse]
  exact rewire_strands h _ _ _

theorem remove_strands (h : l.strands = single (pre ++ n :: post)) (hn : n.live = true)
    (hpre : ∀ m ∈ pre, m.id ≠ n.id) (hl : n.isLabel = false) : (l.remove n.id).2.strands = single (pre ++ post) := by
  simp only [remove, livePlace?_of_strands h hn hpre, hl, unlink, reverse_reverse]
  exact rewire_strands h _ _ _

theorem remove_nextId (l : Listing) (id : Nat) : (l.remove id).2.nextId = l.nextId := by
  unfold remove
  split
  · split <;> rfl
  · rfl

theorem remove_nextLabel (l : Listing) (id : Nat) : (l.remove id).2.nextLabel = l.nextLabel := by
  unfold remove
  split
  · split <;> rfl
  · rfl

theorem replace_nextId (l : Listing) (id : Nat) (i : Instr) : (l.replace id i).2.nextId = l.nextId := by
  unfold replace
  split
  · split <;> rfl
  · rfl

theorem replace_nextLabel (l : Listing) (id : Nat) (i : Instr) : (l.replace id i).2.nextLabel = l.nextLabel := by
  unfold replace
  split
  · split <;> rfl
  · rfl

theorem keep_strands (h : l.Intact) (test : Node → Bool) : (l.keep test).2.strands = single (l.nodes.filter test) := by
  unfold keep
  split
  · next h0 =>
    have hall : ∀ n ∈ l.nodes, test n = true := by simpa using h0
    rw [filter_eq_self.mpr hall]
    exact h.strands
  · exact withNodes_strands h fun hn => by rw [hn]; rfl

theorem keep_count (l : Listing) (test : Node → Bool) : (l.keep test).1 = l.nodes.countP fun n => !test n := by
  unfold keep
  split
  · rename_i hzero
    exact hzero.symm
  · rfl

theorem keep_nextId (l : Listing) (test : Node → Bool) : (l.keep test).2.nextId = l.nextId := by
  unfold keep
  split <;> rfl

theorem keep_nextLabel (l : Listing) (test : Node → Bool) : (l.keep test).2.nextLabel = l.nextLabel := by
  unfold keep
  split <;> rfl

end Listing

/-! ### Renaming targets -/

theorem Instruction.mapTargets_congr {f g : τ → σ} (h : ∀ t ∈ i.targets, f t = g t) :
    i.mapTargets f = i.mapTargets g := by
  cases i with
  | tableSwitch _ _ otherwise =>
    simp only [targets, mem_append, mem_singleton] at h
    simp only [mapTargets, h otherwise (.inr rfl)]
    rw [map_congr_left fun t ht => h t (.inl ht)]
  | lookupSwitch otherwise =>
    simp only [targets, mem_append, mem_map, mem_singleton] at h
    simp only [mapTargets, h otherwise (.inr rfl)]
    rw [map_congr_left fun p hp => by rw [h p.2 (.inl ⟨p, hp, rfl⟩)]]
  | _ => simp_all [mapTargets, targets]

/-- Renaming that leaves every target as it is changes nothing. -/
theorem Instruction.mapTargets_eq_self {f : τ → τ} (h : ∀ t ∈ i.targets, f t = t) : i.mapTargets f = i := by
  have hid : i.mapTargets id = i := by cases i <;> simp [mapTargets]
  rw [mapTargets_congr (g := id) h, hid]

theorem Instruction.mapTargets_mapTargets {ρ : Type} (f : τ → σ) (g : σ → ρ) (i : Instruction τ) :
    (i.mapTargets f).mapTargets g = i.mapTargets fun t => g (f t) := by
  cases i <;> simp [mapTargets]

@[simp] theorem Instruction.targets_mapTargets (f : τ → σ) (i : Instruction τ) :
    (i.mapTargets f).targets = i.targets.map f := by
  cases i <;> simp [mapTargets, targets]

@[simp] theorem Instruction.label?_mapTargets (f : τ → σ) (i : Instruction τ) : (i.mapTargets f).label? = i.label? := by
  cases i <;> rfl

@[simp] theorem Instruction.isReal_mapTargets (f : τ → σ) (i : Instruction τ) : (i.mapTargets f).isReal = i.isReal := by
  cases i <;> rfl

@[simp] theorem Instruction.fallsThrough_mapTargets (f : τ → σ) (i : Instruction τ) :
    (i.mapTargets f).fallsThrough = i.fallsThrough := by
  cases i <;> rfl

/-- The node with its targets renamed. -/
def Node.retarget (f : Label → Label) (n : Node) : Node :=
  { n with content := n.content.map (Instruction.mapTargets f) }

@[simp] theorem Node.id_retarget (f : Label → Label) (n : Node) : (n.retarget f).id = n.id := rfl

@[simp] theorem Node.instr_retarget (f : Label → Label) (n : Node) : (n.retarget f).instr = n.instr.mapTargets f := by
  cases n with
  | mk _ content => cases content <;> rfl

@[simp] theorem Node.live_retarget (f : Label → Label) (n : Node) : (n.retarget f).live = n.live := by
  cases n with
  | mk _ content => cases content <;> rfl

@[simp] theorem Node.isReal_retarget (f : Label → Label) (n : Node) : (n.retarget f).isReal = n.isReal := by
  simp [isReal]

theorem Node.retarget_eq_self (h : ∀ t ∈ n.instr.targets, f t = t) : n.retarget f = n := by
  cases n with
  | mk _ content =>
    cases content with
    | none => rfl
    | some i =>
      have hi : i.mapTargets f = i := mapTargets_eq_self h
      simp [retarget, hi]

@[simp] theorem labelsOf_map_retarget (f : Label → Label) (ns : List Node) :
    labelsOf (ns.map (Node.retarget f)) = labelsOf ns := by
  simp [labelsOf]

@[simp] theorem targetsOf_map_retarget (f : Label → Label) (ns : List Node) :
    targetsOf (ns.map (Node.retarget f)) = (targetsOf ns).map f := by
  simp [targetsOf, flatMap_map, map_flatMap]

namespace Listing

variable {l : Listing}

theorem redirect_fst (l : Listing) (f : Label → Label) :
    (l.redirect f).1 = (targetsOf (l.strands.flatMap Strand.nodes)).countP fun t => f t != t := by
  have hsum : ∀ (ns : List Node) (sum : Nat),
      ns.foldr (fun n sum => n.instr.targets.countP (fun t => f t != t) + sum) sum =
        (targetsOf ns).countP (fun t => f t != t) + sum := by
    intro ns sum
    induction ns with
    | nil => exact (Nat.zero_add sum).symm
    | cons n ns ih => rw [foldr_cons, ih, targetsOf_cons, countP_append, Nat.add_assoc]
  have hcount : l.strands.foldr (fun s sum =>
      s.nodes.foldr (fun n sum => n.instr.targets.countP (fun t => f t != t) + sum) sum) 0 =
      (targetsOf (l.strands.flatMap Strand.nodes)).countP fun t => f t != t := by
    induction l.strands with
    | nil => rfl
    | cons s _ ih => rw [foldr_cons, ih, hsum, flatMap_cons, targetsOf_append, countP_append]
  unfold redirect
  dsimp only
  rw [hcount]
  split
  · rename_i hzero
    exact hzero.symm
  · rfl

theorem redirect_count (h : l.Intact) (f : Label → Label) :
    (l.redirect f).1 = (targetsOf l.nodes).countP fun t => f t != t := by
  rw [redirect_fst, h.strands, single]
  cases l.nodes <;> simp

/-- Nothing to change leaves a listing as it is. -/
theorem redirect_eq_self (h : (l.redirect f).1 = 0) : (l.redirect f).2 = l := by
  unfold redirect at h ⊢
  dsimp only at h ⊢
  split at h
  · rw [if_pos ‹_›]
  · exact absurd h ‹_›

theorem redirect_strands (h : l.Intact) (f : Label → Label) :
    (l.redirect f).2.strands = single (l.nodes.map (Node.retarget f)) := by
  by_cases hzero : (l.redirect f).1 = 0
  · -- renaming is the identity on every node
    rw [redirect_eq_self hzero, map_congr_left fun n hn => ?_, map_id]
    · exact h.strands
    · rw [redirect_count h, countP_eq_zero] at hzero
      refine Node.retarget_eq_self fun t ht => ?_
      simpa using hzero t (mem_targetsOf.mpr ⟨n, hn, ht⟩)
  · unfold redirect at hzero ⊢
    dsimp only at hzero ⊢
    split at hzero
    · exact absurd rfl hzero
    · rw [if_neg ‹_›, h.strands, single, single]
      cases l.nodes <;> simp [Node.retarget]

theorem redirect_nextId (l : Listing) (f : Label → Label) : (l.redirect f).2.nextId = l.nextId := by
  unfold redirect
  simp only
  split <;> rfl

theorem redirect_nextLabel (l : Listing) (f : Label → Label) : (l.redirect f).2.nextLabel = l.nextLabel := by
  unfold redirect
  simp only
  split <;> rfl

/-! ### Sound listings -/

/-- One run of nodes that were not removed, with numbers of their own, none of which and no label of
which will be given out again. -/
structure Sound (l : Listing) : Prop where
  intact : l.Intact
  ids_nodup : (l.nodes.map Node.id).Nodup
  ids_lt : ∀ n ∈ l.nodes, n.id < l.nextId
  labels_lt : ∀ name ∈ labelsOf l.nodes, name < l.nextLabel

theorem sound_of_strands (h : l.strands = single ns) (hlive : ∀ n ∈ ns, n.live = true)
    (hnodup : (ns.map Node.id).Nodup) (hid : ∀ n ∈ ns, n.id < l.nextId)
    (hlabel : ∀ name ∈ labelsOf ns, name < l.nextLabel) : l.Sound := by
  have hns := nodes_of_strands h
  exact ⟨intact_of_strands h hlive, by rwa [hns], by rwa [hns], by rwa [hns]⟩

end Listing

end Untangle
