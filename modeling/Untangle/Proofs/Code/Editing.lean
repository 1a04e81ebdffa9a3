import Untangle.Proofs.Code.DeadCode
import Untangle.Proofs.Code.Sequence

/-!
# Edited listings are plain sequences

A listing that starts empty is edited as a plain sequence of numbered instructions would be. `Body.Shows` says that a
listing is one run of the items of a sequence, and `Listing.Reads` what its look-ups then find.

Each edit answers what the sequence answers and leaves a listing that shows the sequence that is left, so every
series of edits does. The one exception are labels, whose numbers run out: `Body.editAll` fails exactly if the
label to come next has no number any more.
-/

namespace Untangle

open List Sequence

variable {code : Listing} {i : Instr} {items pre post : List (Nat × Instr)}

/-! ### Listings that show a sequence -/

/-- A node that holds an instruction. -/
def Node.ofItem (x : Nat × Instr) : Node := ⟨x.1, some x.2⟩

open Listing

open Node (ofItem)

@[simp] theorem Node.id_ofItem (x : Nat × Instr) : (ofItem x).id = x.1 := rfl

@[simp] theorem Node.instr_ofItem (x : Nat × Instr) : (ofItem x).instr = x.2 := rfl

@[simp] theorem Node.live_ofItem (x : Nat × Instr) : (ofItem x).live = true := rfl

theorem labelsOf_map_ofItem (items : List (Nat × Instr)) :
    labelsOf (items.map ofItem) = items.filterMap (·.2.label?) := by
  rw [labelsOf, filterMap_map]
  rfl

theorem targetsOf_map_ofItem (items : List (Nat × Instr)) :
    targetsOf (items.map ofItem) = items.flatMap (·.2.targets) := by
  rw [targetsOf, flatMap_map]
  rfl

/-- The listing of a body is one run of the items of a sequence, with the same numbers and labels to come, and the
tables are the same. -/
structure Body.Shows (b : Body) (q : Sequence) : Prop where
  strands : b.code.strands = single (q.items.map ofItem)
  nextId : b.code.nextId = q.issued
  nextLabel : b.code.nextLabel = q.nextLabel
  ranges : b.ranges = q.ranges
  locals : b.locals = q.locals

namespace Body.Shows

open Sequence (Answers)

variable {b : Body} {q : Sequence} (h : b.Shows q) {id : Nat}

include h

theorem nodes : b.code.nodes = q.items.map ofItem := nodes_of_strands h.strands

theorem intact : b.code.Intact :=
  intact_of_strands h.strands fun n hn => by
    obtain ⟨x, -, rfl⟩ := mem_map.mp hn
    rfl

theorem referenced : b.referenced = q.used := by
  rw [Body.referenced, Body.nodes, h.nodes, h.ranges, h.locals, flatMap_map]
  rfl

theorem livePlace?_eq_none (hid : id ∉ q.ids) : b.code.livePlace? id = none := by
  refine Listing.livePlace?_eq_none h.strands fun n hn => ?_
  obtain ⟨x, hx, rfl⟩ := mem_map.mp hn
  exact fun heq => hid (heq ▸ mem_map_of_mem hx)

/-- Putting an instruction with a new number somewhere. -/
theorem issue (hs : code.strands = single (items.map ofItem)) (hid : code.nextId = b.code.nextId + 1)
    (hlabel : code.nextLabel = Listing.labelAbove b.code.nextLabel i) :
    ({ b with code } : Body).Shows (q.issue i items) := by
  refine ⟨hs, by rw [hid, h.nextId]; rfl, ?_, h.ranges, h.locals⟩
  rw [hlabel, h.nextLabel]
  cases i <;> rfl

/-- Changing instructions in their places, or taking them out. -/
theorem edited (hs : code.strands = single (items.map ofItem)) (hid : code.nextId = b.code.nextId)
    (hlabel : code.nextLabel = b.code.nextLabel) : ({ b with code } : Body).Shows { q with items } :=
  ⟨hs, hid.trans h.nextId, hlabel.trans h.nextLabel, h.ranges, h.locals⟩

theorem push (i : Instr) :
    ({ b with code := (b.code.push i).2 } : Body).Shows (q.issue i (q.items ++ [(q.issued, i)])) := by
  refine h.issue ?_ rfl rfl
  rw [push_strands h.strands, map_append, h.nextId]
  rfl

theorem newLabel : Answers (fun code q => ({ b with code } : Body).Shows q) b.code.newLabel
    (q.nextLabel, { q with nextLabel := q.nextLabel + 1 }) := by
  rw [Listing.newLabel, h.nextLabel]
  exact .of_ite .rfl ⟨h.strands, h.nextId, rfl, h.ranges, h.locals⟩

/-- A label that stands nowhere is placed as long as labels have numbers. -/
theorem allow (hfresh : ∀ l ∈ i.label?, l ∉ q.labels) (hleft : q.nextLabel ≤ 4294967295)
    (hshows : ({ b with code } : Body).Shows (q.issue i items)) :
    Answers (fun code q => ({ b with code } : Body).Shows q) (b.code.allow i (b.code.nextId, code))
      (q.issued, q.issue i items) := by
  rw [Listing.allow, h.nextId, h.nextLabel]
  cases hi : i.label? with
  | none => exact .of_ok hleft hshows (by simp [Sequence.issue, hi])
  | some name =>
    have hnone : b.code.labelNode? name = none := by
      rw [labelNode?, Option.map_eq_none_iff, Option.eq_none_iff_forall_ne_some]
      intro p hp
      obtain ⟨_, hns, -, hcontent, -⟩ := (labelPlace?_eq_some h.intact).mp hp
      refine hfresh name hi ?_
      rw [labels, ← labelsOf_map_ofItem, ← h.nodes, mem_labelsOf]
      exact ⟨p.node, by simp [hns], Node.instr_of_content hcontent⟩
    have hnext : (q.issue i items).nextLabel = max q.nextLabel (name + 1) := by simp [Sequence.issue, hi]
    simp only [hnone, ← hnext]
    exact .of_ite .rfl hshows

variable (hq : q.Numbered)

include hq

/-- Where a number stands, in terms of nodes. -/
theorem split (hsplit : q.items = pre ++ (id, i) :: post) :
    b.code.strands = single (pre.map ofItem ++ ofItem (id, i) :: post.map ofItem) ∧
      ∀ m ∈ pre.map ofItem, m.id ≠ id := by
  constructor
  · rw [h.strands, hsplit, map_append, map_cons]
  · intro m hm
    obtain ⟨x, hx, rfl⟩ := mem_map.mp hm
    exact hq.ne_of_split hsplit x (mem_append_left _ hx)

/-- The place of a number that is there. -/
theorem livePlace? (hsplit : q.items = pre ++ (id, i) :: post) :
    b.code.livePlace? id = some ⟨(pre.map ofItem).reverse, ⟨id, some i⟩, post.map ofItem⟩ := by
  obtain ⟨hs, hids⟩ := h.split hq hsplit
  exact livePlace?_of_strands hs rfl hids

theorem insertBefore (hid : id ∈ q.ids) (i : Instr) : ({ b with code := (b.code.insertBefore id i).2 } : Body).Shows
      (q.issue i (q.items.flatMap fun x => if x.1 = id then [(q.issued, i), x] else [x])) := by
  obtain ⟨_, j, _, hsplit⟩ := exists_split hid
  obtain ⟨hs, hids⟩ := h.split hq hsplit
  refine h.issue ?_ rfl rfl
  rw [hq.flatMap_split hsplit, map_append, ← h.nextId]
  exact insertBefore_strands hs hids i

theorem insertAfter (hid : id ∈ q.ids) (i : Instr) : ({ b with code := (b.code.insertAfter id i).2 } : Body).Shows
      (q.issue i (q.items.flatMap fun x => if x.1 = id then [x, (q.issued, i)] else [x])) := by
  obtain ⟨_, j, _, hsplit⟩ := exists_split hid
  obtain ⟨hs, hids⟩ := h.split hq hsplit
  refine h.issue ?_ rfl rfl
  rw [hq.flatMap_split hsplit, map_append, ← h.nextId]
  exact insertAfter_strands hs hids i

theorem pushLabel : Answers (fun code q => ({ b with code } : Body).Shows q) b.code.pushLabel
    (q.nextLabel, q.issue (.label q.nextLabel) (q.items ++ [(q.issued, .label q.nextLabel)])) := by
  refine h.newLabel.bind (Nat.le_max_right _ _) fun code hgiven hnow => ?_
  have hplaced := hgiven.allow hq.next_fresh hnow (hgiven.push (.label q.nextLabel))
  rw [issue_given] at hplaced
  exact hplaced.map (f := fun _ => q.nextLabel) (g := fun code => code) fun _ hshows => hshows

/-- A number that only a label has, or nothing, leads to no node that can be moved. -/
theorem isLabel_of_livePlace? (hid : ∀ i, (id, i) ∈ q.items → i.label?.isSome = true) {p : Place}
    (hp : b.code.livePlace? id = some p) : p.node.isLabel = true := by
  by_cases hmem : id ∈ q.ids
  · obtain ⟨_, i, _, hsplit⟩ := exists_split hmem
    rw [h.livePlace? hq hsplit] at hp
    cases hp
    exact hid i (by simp [hsplit])
  · rw [h.livePlace?_eq_none hmem] at hp
    cases hp

theorem remove (id : Nat) : Edit.Answer.instr (b.code.remove id).1 = (q.perform (.remove id)).1 ∧
    ({ b with code := (b.code.remove id).2 } : Body).Shows (q.perform (.remove id)).2 := by
  rcases hq.remove_cases id with ⟨hq', hid⟩ | ⟨_, i, _, hi, hsplit, hq'⟩
  · have hcode : b.code.remove id = (none, b.code) := by
      unfold Listing.remove
      split
      · rename_i p hp
        rw [if_pos (h.isLabel_of_livePlace? hq hid hp)]
      · rfl
    rw [hcode, hq']
    exact ⟨rfl, h⟩
  · obtain ⟨hs, hids⟩ := h.split hq hsplit
    rw [hq']
    refine ⟨?_, h.edited ?_ (remove_nextId _ _) (remove_nextLabel _ _)⟩
    · simp [Listing.remove, h.livePlace? hq hsplit, Node.isLabel, hi]
    · rw [map_append]
      exact remove_strands hs rfl hids (by simp [Node.isLabel, hi])

theorem replace (id : Nat) (i : Instr) : Edit.Answer.instr (b.code.replace id i).1 = (q.perform (.replace id i)).1 ∧
    ({ b with code := (b.code.replace id i).2 } : Body).Shows (q.perform (.replace id i)).2 := by
  rcases hq.replace_cases id i with ⟨hq', hid⟩ | ⟨_, j, _, hi, hj, hsplit, hq'⟩
  · have hcode : b.code.replace id i = (none, b.code) := by
      unfold Listing.replace
      split
      · rename_i p hp
        rcases hid with hi | hid
        · rw [hi, Bool.or_true, if_pos rfl]
        · rw [h.isLabel_of_livePlace? hq hid hp, Bool.true_or, if_pos rfl]
      · rfl
    rw [hcode, hq']
    exact ⟨rfl, h⟩
  · obtain ⟨hs, hids⟩ := h.split hq hsplit
    rw [hq']
    refine ⟨?_, h.edited ?_ (replace_nextId _ _ _) (replace_nextLabel _ _ _)⟩
    · simp [Listing.replace, h.livePlace? hq hsplit, Node.isLabel, hi, hj]
    · rw [map_append]
      exact replace_strands hs rfl hids (by simp [Node.isLabel, hj]) hi

omit hq in
theorem redirect (f : Label → Label) (handlers : Bool) :
    Edit.Answer.count (b.redirect f handlers).1 = (q.perform (.redirect f handlers)).1 ∧
      (b.redirect f handlers).2.Shows (q.perform (.redirect f handlers)).2 := by
  have hcount : (b.code.redirect f).1 = q.targets.countP fun t => f t != t := by
    rw [redirect_count h.intact, h.nodes, targetsOf_map_ofItem]
    rfl
  have hs : (b.code.redirect f).2.strands =
      single ((q.items.map fun x => (x.1, x.2.mapTargets f)).map ofItem) := by
    rw [redirect_strands h.intact, h.nodes, map_map, map_map]
    rfl
  have hcode := h.edited hs (redirect_nextId _ _) (redirect_nextLabel _ _)
  cases handlers with
  | false => exact ⟨congrArg _ hcount, hcode⟩
  | true =>
    have hkept := b.code_redirect f true
    simp only [perform, ← hcount, ← h.ranges]
    exact ⟨congrArg _ (b.count_redirect f), hkept ▸ hcode.strands, hkept ▸ hcode.nextId, hkept ▸ hcode.nextLabel,
      b.ranges_redirect f, (b.locals_redirect f true).trans hcode.locals⟩

omit hq in
theorem pruneLabels : Edit.Answer.count b.pruneLabels.1 = (q.perform .prune).1 ∧
    b.pruneLabels.2.Shows (q.perform .prune).2 := by
  have hcontains : ∀ l, b.referencedSet.contains l = decide (l ∈ q.used) := by
    intro l
    rw [← h.referenced, Bool.eq_iff_iff, decide_eq_true_iff]
    exact mem_referencedSet
  have htest : ∀ x : Nat × Instr, (ofItem x).instr.label?.all b.referencedSet.contains =
      x.2.label?.all (· ∈ q.used) := by
    intro x
    cases hl : x.2.label? <;> simp [hl, hcontains]
  constructor
  · show Edit.Answer.count (b.code.keep _).1 = _
    rw [keep_count, h.nodes, countP_map]
    refine congrArg _ (countP_congr fun x _ => ?_)
    rw [Function.comp_apply, htest]
    cases x.2.label? <;> simp
  · have hs : (b.code.keep fun n => n.instr.label?.all b.referencedSet.contains).2.strands =
        single ((q.items.filter fun x => x.2.label?.all (· ∈ q.used)).map ofItem) := by
      rw [keep_strands h.intact, h.nodes, filter_map]
      congr 2
      exact filter_congr fun x _ => htest x
    exact h.edited hs (keep_nextId _ _) (keep_nextLabel _ _)

/-- Every edit answers what the sequence answers and leaves what shows the sequence that is left, as long as labels
have numbers. -/
theorem edit (hleft : q.nextLabel ≤ 4294967295) {e : Edit} (he : q.Admits e) :
    Answers Shows (b.edit e) (q.perform e) := by
  have hedited : ∀ {x : Edit.Answer × Sequence} {answer : Edit.Answer} {c : Body},
      answer = x.1 ∧ c.Shows x.2 → x.2.nextLabel = q.nextLabel → Answers Shows (.ok (answer, c)) x := by
    rintro x _ c ⟨rfl, hshows⟩ hnext
    exact .of_ok hleft hshows hnext
  cases e with
  | push i => exact (h.allow he hleft (h.push i)).map fun _ hshows => hshows
  | pushLabel => exact (h.pushLabel hq).map fun _ hshows => hshows
  | newLabel => exact h.newLabel.map fun _ hshows => hshows
  | insertBefore id i => exact (h.allow he.2 hleft (h.insertBefore hq he.1 i)).map fun _ hshows => hshows
  | insertAfter id i => exact (h.allow he.2 hleft (h.insertAfter hq he.1 i)).map fun _ hshows => hshows
  | remove id => exact hedited (h.remove hq id) rfl
  | replace id i =>
    refine hedited (h.replace hq id i) ?_
    rw [perform]
    split <;> rfl
  | redirect f handlers => exact hedited (h.redirect f handlers) rfl
  | prune => exact hedited h.pruneLabels rfl
  | tables => exact hedited ⟨rfl, h.strands, h.nextId, h.nextLabel, rfl, rfl⟩ rfl

end Body.Shows

/-! ### What look-ups find -/

namespace Body.Shows

variable {b : Body} {q : Sequence} (h : b.Shows q)

include h

theorem size : b.code.size = q.items.length := by
  have hlive : ∀ items : List (Nat × Instr), (items.map ofItem).countP Node.live = items.length := by
    intro items
    rw [countP_eq_length.mpr fun n hn => ?_, length_map]
    obtain ⟨x, -, rfl⟩ := mem_map.mp hn
    rfl
  rw [Listing.size, h.strands, single]
  split
  · rename_i hnone
    rw [List.isEmpty_iff, map_eq_nil_iff] at hnone
    rw [hnone]
    rfl
  · show (q.items.map ofItem).countP Node.live + 0 = _
    rw [hlive, Nat.add_zero]

theorem last : b.code.last? = q.items.getLast?.map Prod.fst := by
  rw [last?, h.strands, single]
  split
  · rename_i hnone
    rw [List.isEmpty_iff, map_eq_nil_iff] at hnone
    rw [hnone]
    rfl
  · simp only [find?_cons, Option.bind_some, getLast?_map, Option.map_map]
    rfl

/-- The look-ups of a listing that shows a sequence. -/
theorem reads (hq : q.Numbered) : b.code.view.Reads q.items := by
  have hplace : ∀ pre x post, q.items = pre ++ x :: post →
      b.code.livePlace? x.1 = some ⟨(pre.map ofItem).reverse, ofItem x, post.map ofItem⟩ := by
    intro pre x post hsplit
    exact h.livePlace? hq hsplit
  have hreal : ∀ items : List (Nat × Instr),
      ((items.map ofItem).find? Node.isReal).map Node.id = (items.find? (·.2.isReal)).map Prod.fst := by
    intro items
    rw [find?_map, Option.map_map]
    rfl
  have hget : ∀ id i, b.code.get? id = some i ↔ (id, i) ∈ q.items := by
    intro id i
    constructor
    · intro hi
      by_cases hid : id ∈ q.ids
      · obtain ⟨pre, j, post, hsplit⟩ := exists_split hid
        rw [get?, hplace _ _ _ hsplit] at hi
        cases hi
        rw [hsplit]
        simp
      · rw [get?, h.livePlace?_eq_none hid] at hi
        cases hi
    · intro hmem
      obtain ⟨pre, post, hsplit⟩ := append_of_mem hmem
      rw [get?, hplace _ _ _ hsplit]
      rfl
  constructor
  case pairs =>
    show b.code.nodes.map _ = _
    rw [h.nodes, map_map]
    exact map_id' _
  case size => exact h.size
  case isEmpty =>
    show (b.code.size == 0) = _
    rw [h.size]
    cases q.items <;> rfl
  case first =>
    show b.code.nodes.head?.map _ = _
    rw [h.nodes, head?_map, Option.map_map]
    rfl
  case last => exact h.last
  case get => exact hget
  case contains =>
    intro id
    show (b.code.get? id).isSome = true ↔ _
    simp [Option.isSome_iff_exists, hget]
  case label =>
    intro name id
    show (b.code.labelPlace? name).map _ = some id ↔ _
    rw [Option.map_eq_some_iff]
    constructor
    · rintro ⟨p, hp, rfl⟩
      obtain ⟨pre, hns, -, hcontent, -⟩ := (labelPlace?_eq_some h.intact).mp hp
      have hmem : p.node ∈ q.items.map ofItem := by
        rw [← h.nodes, hns]
        simp
      obtain ⟨⟨_, i⟩, hx, hnode⟩ := mem_map.mp hmem
      rw [← hnode] at hcontent ⊢
      cases hcontent
      exact hx
    · intro hmem
      obtain ⟨pre, post, hsplit⟩ := append_of_mem hmem
      refine ⟨⟨(pre.map ofItem).reverse, ofItem (id, .label name), post.map ofItem⟩, ?_, rfl⟩
      refine (labelPlace?_eq_some h.intact).mpr ⟨pre.map ofItem, ?_, rfl, rfl, ?_⟩
      · rw [h.nodes, hsplit, map_append, map_cons]
      · -- the label stands nowhere else
        have hnodup := hq.labels_nodup
        rw [labels, hsplit, filterMap_append, nodup_append] at hnodup
        rw [labelsOf_map_ofItem]
        intro hpre
        exact hnodup.2.2 name hpre name (by simp [Instruction.label?]) rfl
  case next =>
    intro pre x post hsplit
    show ((b.code.livePlace? x.1).bind _).map _ = _
    rw [hplace _ _ _ hsplit]
    simp [Function.comp_def]
  case prev =>
    intro pre x post hsplit
    show ((b.code.livePlace? x.1).bind _).map _ = _
    rw [hplace _ _ _ hsplit]
    simp [Function.comp_def]
  case nextReal =>
    intro pre x post hsplit
    show ((b.code.livePlace? x.1).bind _).map _ = _
    rw [hplace _ _ _ hsplit]
    exact hreal post
  case prevReal =>
    intro pre x post hsplit
    show ((b.code.livePlace? x.1).bind _).map _ = _
    rw [hplace _ _ _ hsplit, ← map_reverse]
    exact hreal pre.reverse
  case realFrom =>
    intro pre x post hsplit
    show ((b.code.livePlace? x.1).bind _).map _ = _
    rw [hplace _ _ _ hsplit]
    exact hreal (x :: post)
  case absent =>
    intro id hid
    have hnone := h.livePlace?_eq_none hid
    simp [view, Listing.next?, prev?, nextReal?, prevReal?, realFrom?, hnone]

end Body.Shows

end Untangle
