import Mathlib.Data.List.Induction
import Mathlib.Data.List.Perm.Subperm
import Std.Data.TreeMap.Lemmas
import Untangle.Proofs.Code.Editing

/-!
# The cells of a listing

An arena is edited as a plain sequence of numbered instructions would be. The items of the sequence are a doubly linked
run of cells (`Linked`) from the head to the tail, all other cells are those of removed nodes, and the number of nodes
and the nodes of labels are those of the items (`Arena.Chains`).

So cells and strands answer every series of edits in the same way, and look-ups find the same in both.
-/

namespace Untangle

open List Sequence Instruction

variable {a : Arena} {q : Sequence} {xs pre post : List (Nat × Instr)} {x : Nat × Instr} {i : Instr}
  {prev next before after : Option Nat} {k id steps : Nat} {g : Nat × Instr → Nat × Instr}

/-! ### Runs of cells -/

/-- The number of the first item. -/
def firstOf (xs : List (Nat × Instr)) : Option Nat := xs.head?.map Prod.fst

/-- The number of the last item. -/
def lastOf (xs : List (Nat × Instr)) : Option Nat := xs.getLast?.map Prod.fst

@[simp] theorem firstOf_nil : firstOf [] = none := rfl

@[simp] theorem firstOf_cons (x : Nat × Instr) (xs : List (Nat × Instr)) : firstOf (x :: xs) = some x.1 := rfl

@[simp] theorem lastOf_nil : lastOf [] = none := rfl

@[simp] theorem firstOf_append (xs ys : List (Nat × Instr)) : firstOf (xs ++ ys) = (firstOf xs).or (firstOf ys) := by
  cases xs <;> rfl

@[simp] theorem lastOf_append (xs ys : List (Nat × Instr)) : lastOf (xs ++ ys) = (lastOf ys).or (lastOf xs) := by
  simp [lastOf, Option.map_or]

@[simp] theorem lastOf_cons (x : Nat × Instr) (xs : List (Nat × Instr)) :
    lastOf (x :: xs) = (lastOf xs).or (some x.1) := lastOf_append [x] xs

theorem firstOf_ne (h : ∀ x ∈ xs, x.1 ≠ k) : firstOf xs ≠ some k := by
  intro he
  obtain ⟨x, hx, rfl⟩ := Option.map_eq_some_iff.mp he
  exact h x (mem_of_head? hx) rfl

theorem lastOf_ne (h : ∀ x ∈ xs, x.1 ≠ k) : lastOf xs ≠ some k := by
  intro he
  obtain ⟨x, hx, rfl⟩ := Option.map_eq_some_iff.mp he
  exact h x (mem_of_getLast? hx) rfl

theorem firstOf_map (h : ∀ x ∈ xs, (g x).1 = x.1) : firstOf (xs.map g) = firstOf xs := by
  rw [firstOf, firstOf, ← head?_map, ← head?_map, map_fst_map h]

theorem lastOf_map (h : ∀ x ∈ xs, (g x).1 = x.1) : lastOf (xs.map g) = lastOf xs := by
  rw [lastOf, lastOf, ← getLast?_map, ← getLast?_map, map_fst_map h]

/-- Items in their cells, each linked to the next and to the one before. -/
def Linked (cells : Array Cell) (items : List (Nat × Instr)) : Prop :=
  ∀ pre x post, items = pre ++ x :: post → cells[x.1]? = some ⟨x.2, lastOf pre, firstOf post, true⟩

namespace Arena

theorem cells_join (a : Arena) (prev next : Option Nat) (k : Nat) :
    (a.join prev next).cells[k]? = a.cells[k]?.map fun c =>
      { c with next := if prev = some k then next else c.next, prev := if next = some k then prev else c.prev } := by
  cases prev <;> cases next <;>
    simp only [join, update, Array.getElem?_modify] <;>
    split_ifs <;> simp_all [Function.comp_def]

theorem cells_join_of_ne (hprev : prev ≠ some k) (hnext : next ≠ some k) :
    (a.join prev next).cells[k]? = a.cells[k]? := by
  simp [cells_join, hprev, hnext]

theorem cells_update_of_ne {f : Cell → Cell} (hk : k ≠ id) : (a.update id f).cells[k]? = a.cells[k]? := by
  rw [update, Array.getElem?_modify, if_neg hk.symm]

section

variable (a : Arena) (prev next : Option Nat)

@[simp] theorem size_cells_join : (a.join prev next).cells.size = a.cells.size := by
  cases prev <;> cases next <;> simp [join, update]

theorem head_join : (a.join prev next).head = if prev = none then next else a.head := by
  cases prev <;> cases next <;> rfl

theorem tail_join : (a.join prev next).tail = if next = none then prev else a.tail := by
  cases prev <;> cases next <;> rfl

@[simp] theorem size_join : (a.join prev next).size = a.size := by
  cases prev <;> cases next <;> rfl

@[simp] theorem labels_join : (a.join prev next).labels = a.labels := by
  cases prev <;> cases next <;> rfl

@[simp] theorem nextLabel_join : (a.join prev next).nextLabel = a.nextLabel := by
  cases prev <;> cases next <;> rfl

end

end Arena

namespace Linked

/-- A cell that nothing is linked to can be put between two neighbours. -/
theorem insert (h : Linked a.cells (pre ++ post)) (hids : ((pre ++ x :: post).map Prod.fst).Nodup)
    (hnew : a.cells[x.1]? = some { instr := x.2 }) :
    Linked ((a.join (lastOf pre) (some x.1)).join (some x.1) (firstOf post)).cells (pre ++ x :: post) := by
  intro front y back hsplit
  have hne : ∀ z ∈ front ++ back, z.1 ≠ y.1 := ne_of_nodup (hsplit ▸ hids)
  rw [Arena.cells_join, Arena.cells_join]
  rcases split_cons hsplit with ⟨mid, rfl, rfl⟩ | ⟨rfl, rfl, rfl⟩ | ⟨mid, rfl, rfl⟩
  · have hfirst : firstOf post ≠ some y.1 := firstOf_ne fun z hz => hne z (by simp [hz])
    rw [h front y (mid ++ post) (by simp)]
    rcases eq_nil_or_concat' mid with rfl | ⟨mid, z, rfl⟩
    · simp [hne x, hfirst]
    · simp [hne x, hne z, hfirst]
  · have hfirst : firstOf post ≠ some x.1 := firstOf_ne fun z hz => hne z (by simp [hz])
    simp [hnew, hfirst]
  · have hlast : lastOf pre ≠ some y.1 := lastOf_ne fun z hz => hne z (by simp [hz])
    rw [h (pre ++ mid) y back (by simp)]
    cases mid with
    | nil => simp [hne x, hlast]
    | cons z mid => simp [hne x, hne z, hlast]

/-- What stands before and behind an item can be made neighbours. -/
theorem cut (h : Linked a.cells (pre ++ x :: post)) (hids : ((pre ++ post).map Prod.fst).Nodup) :
    Linked (a.join (lastOf pre) (firstOf post)).cells (pre ++ post) := by
  intro front y back hsplit
  have hne : ∀ z ∈ front ++ back, z.1 ≠ y.1 := ne_of_nodup (hsplit ▸ hids)
  rw [Arena.cells_join]
  rcases split_append hsplit with ⟨mid, rfl, rfl⟩ | ⟨mid, rfl, rfl⟩
  · have hfirst : firstOf post ≠ some y.1 := firstOf_ne fun z hz => hne z (by simp [hz])
    rw [h front y (mid ++ x :: post) (by simp)]
    rcases eq_nil_or_concat' mid with rfl | ⟨mid, z, rfl⟩
    · simp [hfirst]
    · simp [hne z, hfirst]
  · have hlast : lastOf pre ≠ some y.1 := lastOf_ne fun z hz => hne z (by simp [hz])
    rw [h (pre ++ x :: mid) y back (by simp)]
    cases mid with
    | nil => simp [hlast]
    | cons z mid => simp [hne z, hlast]

theorem follow_next (h : Linked a.cells (pre ++ xs)) (hsteps : xs.length ≤ steps) :
    a.follow Cell.next steps (firstOf xs) = xs := by
  induction xs generalizing pre steps with
  | nil => cases steps <;> rfl
  | cons x xs ih =>
    obtain ⟨steps, rfl⟩ : ∃ k, steps = k + 1 := ⟨steps - 1, by grind⟩
    rw [firstOf_cons, Arena.follow, h pre x xs rfl]
    rw [append_cons] at h
    simp [ih h (by simpa using hsteps)]

theorem follow_prev (h : Linked a.cells (xs ++ post)) (hsteps : xs.length ≤ steps) :
    a.follow Cell.prev steps (lastOf xs) = xs.reverse := by
  induction xs using reverseRecOn generalizing post steps with
  | nil => cases steps <;> rfl
  | append_singleton xs x ih =>
    obtain ⟨steps, rfl⟩ : ∃ k, steps = k + 1 := ⟨steps - 1, by grind⟩
    have hlast : lastOf (xs ++ [x]) = some x.1 := by simp
    rw [append_assoc] at h
    rw [hlast, Arena.follow, h xs x post rfl]
    simp [ih h (by simpa using hsteps)]

end Linked

/-! ### Arenas that show a sequence -/

/-- The items of a sequence are a run of cells from the head to the tail, every other cell is that of a removed node,
and what is kept on the side is that of the sequence. -/
structure Arena.Chains (a : Arena) (q : Sequence) : Prop where
  cells : a.cells.size = q.issued
  links : Linked a.cells q.items
  removed : ∀ id ∉ q.ids, a.cell? id = none
  head : a.head = firstOf q.items
  tail : a.tail = lastOf q.items
  size : a.size = q.items.length
  labels : ∀ name id, a.labels[name]? = some id ↔ (id, .label name) ∈ q.items
  nextLabel : a.nextLabel = q.nextLabel

/-- A body in cells is a sequence with the same tables. -/
structure ArenaBody.Shows (c : ArenaBody) (q : Sequence) : Prop where
  code : c.code.Chains q
  ranges : c.ranges = q.ranges
  locals : c.locals = q.locals

namespace Arena

/-- The arena once an instruction got a cell. -/
def given (a : Arena) (i : Instr) : Arena :=
  { a with cells := a.cells.push { instr := i }, size := a.size + 1
           labels := i.label?.elim a.labels (a.labels.insert · a.cells.size)
           nextLabel := i.label?.elim a.nextLabel fun l => max a.nextLabel (l + 1) }

namespace Chains

open Sequence (Answers)

variable (h : a.Chains q) (hq : q.Numbered)

include h

/-! ### Look-ups -/

/-- The cell of an item says where it stands. -/
theorem cell?_eq (hsplit : q.items = pre ++ x :: post) : a.cell? x.1 = some ⟨x.2, lastOf pre, firstOf post, true⟩ := by
  rw [cell?, h.links pre x post hsplit]
  rfl

theorem get?_eq_some (id : Nat) (i : Instr) : a.get? id = some i ↔ (id, i) ∈ q.items := by
  rw [get?]
  constructor
  · intro hi
    by_cases hid : id ∈ q.ids
    · obtain ⟨pre, j, post, hsplit⟩ := exists_split hid
      rw [h.cell?_eq hsplit] at hi
      cases hi
      simp [hsplit]
    · rw [h.removed id hid] at hi
      cases hi
  · intro hmem
    obtain ⟨pre, post, hsplit⟩ := append_of_mem hmem
    rw [h.cell?_eq hsplit]
    rfl

include hq in
theorem length_le : q.items.length ≤ a.cells.size := by
  have hsub : q.ids ⊆ range a.cells.size := by
    intro k hk
    rw [mem_range, h.cells]
    exact hq.ids_lt k hk
  simpa [ids] using (subperm_of_subset hq.ids_nodup hsub).length_le

include hq in
theorem pairs_eq : a.pairs = q.items := by
  rw [pairs, h.head]
  have hlinks : Linked a.cells ([] ++ q.items) := h.links
  exact hlinks.follow_next (h.length_le hq)

include hq in
/-- Following links from an item leads through what stands behind it and before it. -/
theorem walks (hsplit : q.items = pre ++ x :: post) :
    a.walk Cell.next (a.next? x.1) = post ∧ a.walk Cell.prev (a.prev? x.1) = pre.reverse := by
  have hlinks := h.links
  have hlength := h.length_le hq
  rw [hsplit, length_append, length_cons] at hlength
  rw [hsplit] at hlinks
  rw [next?, prev?, h.cell?_eq hsplit]
  exact ⟨(append_cons pre x post ▸ hlinks).follow_next (by omega), hlinks.follow_prev (by omega)⟩

include hq in
/-- The look-ups of an arena that shows a sequence. -/
theorem reads : a.view.Reads q.items where
  pairs := h.pairs_eq hq
  size := h.size
  isEmpty := by
    show (a.size == 0) = _
    rw [h.size]
    cases q.items <;> rfl
  first := h.head
  last := h.tail
  get := h.get?_eq_some
  contains id := by
    have hsome : (a.get? id).isSome = (a.cell? id).isSome := Option.isSome_map
    show (a.cell? id).isSome = true ↔ _
    simp [← hsome, Option.isSome_iff_exists, h.get?_eq_some]
  label := h.labels
  next pre x post hsplit := by
    show (a.cell? x.1).bind Cell.next = _
    rw [h.cell?_eq hsplit]
    rfl
  prev pre x post hsplit := by
    show (a.cell? x.1).bind Cell.prev = _
    rw [h.cell?_eq hsplit]
    rfl
  nextReal pre x post hsplit := by
    show ((a.walk Cell.next (a.next? x.1)).find? _).map _ = _
    rw [(h.walks hq hsplit).1]
  prevReal pre x post hsplit := by
    show ((a.walk Cell.prev (a.prev? x.1)).find? _).map _ = _
    rw [(h.walks hq hsplit).2]
  realFrom pre x post hsplit := by
    have hget : a.get? x.1 = some x.2 := (h.get?_eq_some _ _).mpr (by simp [hsplit])
    show a.realFrom? x.1 = _
    simp only [realFrom?, hget, nextReal?, (h.walks hq hsplit).1, Option.bind_eq_bind, Option.bind_some, find?_cons]
    cases x.2.isReal <;> rfl
  absent id hid := by
    have hnone := h.removed id hid
    simp [view, next?, prev?, nextReal?, prevReal?, realFrom?, get?, walk, follow, hnone]

/-! ### Inserting -/

theorem newLabel : Answers Chains a.newLabel (q.nextLabel, { q with nextLabel := q.nextLabel + 1 }) := by
  rw [Arena.newLabel, h.nextLabel]
  exact .of_ite .rfl ⟨h.cells, h.links, h.removed, h.head, h.tail, h.size, h.labels, rfl⟩

theorem labels_eq_none {name : Label} (hname : name ∉ q.labels) : a.labels[name]? = none :=
  Option.eq_none_iff_forall_ne_some.mpr fun id hid =>
    hname (mem_filterMap.mpr ⟨_, (h.labels name id).mp hid, rfl⟩)

/-- The label of a new item is found, as are those that were there. -/
theorem labels_given (hfresh : ∀ l ∈ i.label?, l ∉ q.labels) (name : Label) (id : Nat) :
    (a.given i).labels[name]? = some id ↔ (id, .label name) = (q.issued, i) ∨ (id, .label name) ∈ q.items := by
  rw [given, ← h.labels, h.cells]
  cases hi : i.label? with
  | none =>
    have hne : label name ≠ i := fun he => by simp [← he, label?] at hi
    simp [hne]
  | some name' =>
    obtain rfl := label?_eq_some.mp hi
    by_cases hname : name' = name
    · subst hname
      simp [h.labels_eq_none (hfresh name' hi), eq_comm]
    · simp [Std.TreeMap.getElem?_insert, hname, Ne.symm hname]

/-- What is done to the flag makes no difference. -/
theorem touch : ({ a with modified := true } : Arena).Chains q :=
  ⟨h.cells, h.links, h.removed, h.head, h.tail, h.size, h.labels, h.nextLabel⟩

section

variable (hfit : q.issued < 4294967296) (hfresh : ∀ l ∈ i.label?, l ∉ q.labels) (hleft : q.nextLabel ≤ 4294967295)

include hfit hfresh hleft

/-- An instruction gets a cell as long as labels have numbers. -/
theorem alloc (items : List (Nat × Instr)) :
    Answers (fun a' _ => a' = a.given i) (a.alloc i) (q.issued, q.issue i items) := by
  have hid : a.cells.size % 4294967296 = q.issued := by rw [h.cells, Nat.mod_eq_of_lt hfit]
  rw [Arena.alloc, register, hid]
  cases hi : i.label? with
  | none => exact .of_ok hleft (by simp [given, hi]) (by simp [issue, hi])
  | some name =>
    have hnone : a.labels.contains name = false := by
      rw [Std.TreeMap.contains_eq_isSome_getElem?, h.labels_eq_none (hfresh name hi)]
      rfl
    have hnext : (q.issue i items).nextLabel = max q.nextLabel (name + 1) := by simp [issue, hi]
    simp only [hnone, Bool.false_eq_true, if_false, h.nextLabel]
    refine ⟨fun hnow => ⟨a.given i, ?_, rfl⟩, fun hnone => ?_⟩
    · rw [if_pos (hnext ▸ hnow)]
      simp [given, hi, h.nextLabel, h.cells, bind, Except.bind, pure, Except.pure]
    · rw [if_neg (Nat.not_le_of_lt (hnext ▸ hnone))]
      rfl

include hq

/-- An instruction is put between two neighbours, or at one of the ends. -/
theorem insert (hsplit : q.items = pre ++ post) :
    Answers Chains (a.insert (lastOf pre) (firstOf post) i) (q.issued, q.issue i (pre ++ (q.issued, i) :: post)) := by
  refine (h.alloc hfit hfresh hleft (pre ++ (q.issued, i) :: post)).bind (Nat.le_refl _) ?_
  rintro _ rfl hnow
  refine .of_ok hnow ?_ rfl
  have hperm : (pre ++ (q.issued, i) :: post).Perm ((q.issued, i) :: q.items) := hsplit ▸ perm_middle
  have hissue := hq.issue hperm hfresh
  have hcells : ∀ k ≠ q.issued, (a.given i).cells[k]? = a.cells[k]? := by
    intro k hk
    rw [given, Array.getElem?_push, h.cells, if_neg hk]
  have hnew : (a.given i).cells[q.issued]? = some { instr := i } := by
    rw [given, ← h.cells, Array.getElem?_push_size]
  have hlinks : Linked (a.given i).cells (pre ++ post) := by
    intro front y back hy
    rw [← hsplit] at hy
    rw [hcells y.1 (Nat.ne_of_lt (hq.ids_lt y.1 (mem_map_of_mem (by simp [hy]))))]
    exact h.links front y back hy
  have hmem : ∀ k, k ∉ (q.issue i (pre ++ (q.issued, i) :: post)).ids → k ∉ q.ids ∧ k ≠ q.issued := by
    intro k hk
    have hids : (q.issue i (pre ++ (q.issued, i) :: post)).ids.Perm (q.issued :: q.ids) := hperm.map Prod.fst
    rw [hids.mem_iff, mem_cons, not_or] at hk
    exact hk.symm
  refine ⟨?_, hlinks.insert (x := (q.issued, i)) hissue.ids_nodup hnew, fun k hk => ?_, ?_, ?_, ?_,
    fun name id => ?_, ?_⟩
  · simp [given, h.cells, issue]
  · obtain ⟨hold, hk⟩ := hmem k hk
    have hne : ∀ x ∈ pre ++ post, x.1 ≠ k := fun x hx heq => hold (heq ▸ mem_map_of_mem (hsplit ▸ hx))
    rw [forall_mem_append] at hne
    have hnew : some q.issued ≠ some k := by simpa using hk.symm
    rw [cell?, cells_join_of_ne hnew (firstOf_ne hne.2), cells_join_of_ne (lastOf_ne hne.1) hnew, hcells k hk]
    exact h.removed k hold
  · show _ = firstOf (pre ++ (q.issued, i) :: post)
    rw [head_join, head_join]
    cases pre with
    | nil => simp
    | cons x pre => simp [given, h.head, hsplit]
  · show _ = lastOf (pre ++ (q.issued, i) :: post)
    rw [tail_join, tail_join]
    rcases eq_nil_or_concat' post with rfl | ⟨post, x, rfl⟩
    · simp
    · simp [given, h.tail, hsplit]
  · simp [given, h.size, issue, hsplit, Nat.add_assoc]
  · rw [labels_join, labels_join, h.labels_given hfresh]
    exact mem_cons.symm.trans hperm.mem_iff.symm
  · simp [given, h.nextLabel, issue]

theorem push : Answers Chains (a.push i) (q.issued, q.issue i (q.items ++ [(q.issued, i)])) := by
  rw [Arena.push, h.tail]
  exact h.insert hq hfit hfresh hleft (append_nil _).symm

theorem insertBefore (hid : id ∈ q.ids) : Answers Chains (a.insertBefore id i)
      (q.issued, q.issue i (q.items.flatMap fun x => if x.1 = id then [(q.issued, i), x] else [x])) := by
  obtain ⟨pre, j, post, hsplit⟩ := exists_split hid
  have hinsert := h.touch.insert hq hfit hfresh hleft hsplit
  rw [Arena.insertBefore, h.links pre (id, j) post hsplit, hq.flatMap_split hsplit]
  exact hinsert

theorem insertAfter (hid : id ∈ q.ids) : Answers Chains (a.insertAfter id i)
      (q.issued, q.issue i (q.items.flatMap fun x => if x.1 = id then [x, (q.issued, i)] else [x])) := by
  obtain ⟨pre, j, post, hsplit⟩ := exists_split hid
  have hlast : some id = lastOf (pre ++ [(id, j)]) := by simp
  have hinsert := h.touch.insert hq hfit hfresh hleft (hsplit.trans (append_cons pre (id, j) post))
  rw [Arena.insertAfter, h.links pre (id, j) post hsplit, hq.flatMap_split hsplit, hlast]
  rwa [append_assoc] at hinsert

end

include hq in
theorem pushLabel (hfit : q.issued < 4294967296) : Answers Chains a.pushLabel
    (q.nextLabel, q.issue (.label q.nextLabel) (q.items ++ [(q.issued, .label q.nextLabel)])) := by
  refine h.newLabel.bind (Nat.le_max_right _ _) fun a' hgiven hnow => ?_
  have hpush := hgiven.push (hq.perform (e := .newLabel) trivial) hfit hq.next_fresh hnow
  rw [issue_given] at hpush
  exact hpush.map (f := fun _ => q.nextLabel) fun _ hchains => hchains

/-! ### Other edits -/

include hq in
theorem unlink (hsplit : q.items = pre ++ x :: post) :
    (a.unlink x.1).1 = some x.2 ∧ (a.unlink x.1).2.Chains { q with items := pre ++ post } := by
  have hne := hq.ne_of_split hsplit
  have hlinks := h.links
  have hlabels := h.labels
  have hsub : (pre ++ post).Sublist q.items := by
    rw [hsplit]
    exact (Sublist.refl _).append (sublist_cons_self _ _)
  rw [hsplit] at hlinks hlabels
  have hout : ∀ k, (∀ y ∈ pre ++ post, y.1 ≠ k) → (a.join (lastOf pre) (firstOf post)).cells[k]? = a.cells[k]? := by
    intro k hno
    rw [forall_mem_append] at hno
    exact cells_join_of_ne (lastOf_ne hno.1) (firstOf_ne hno.2)
  simp only [Arena.unlink, h.cell?_eq hsplit]
  refine ⟨trivial, by simp [update, h.cells], ?_, fun k hk => ?_, ?_, ?_, by simp [update, h.size, hsplit],
    fun name id => ?_, by simp [update, h.nextLabel]⟩
  · intro front y back (hy : pre ++ post = _)
    rw [cells_update_of_ne (hne y (by simp [hy]))]
    exact hlinks.cut (hq.sublist hsub).ids_nodup front y back hy
  · have hno : ∀ y ∈ pre ++ post, y.1 ≠ k := fun y hy heq => hk (heq ▸ mem_map_of_mem hy)
    by_cases hx : k = x.1
    · subst hx
      simp [cell?, update, Array.getElem?_modify, Cell.removed]
    · show ((a.join _ _).update x.1 _).cells[k]?.filter Cell.live = none
      rw [cells_update_of_ne hx, hout k hno]
      refine h.removed k fun hmem => hk ?_
      rw [ids, hsplit, map_append, map_cons, mem_append, mem_cons] at hmem
      rw [ids, map_append, mem_append]
      exact hmem.imp_right (Or.resolve_left · hx)
  · show (a.join _ _).head = firstOf (pre ++ post)
    rw [head_join]
    cases pre with
    | nil => simp
    | cons y pre => simp [h.head, hsplit]
  · show (a.join _ _).tail = lastOf (pre ++ post)
    rw [tail_join]
    rcases eq_nil_or_concat' post with rfl | ⟨post, y, rfl⟩
    · simp
    · simp [h.tail, hsplit]
  · -- a label is forgotten with its item
    have hmem : ∀ y, y ∈ pre ++ x :: post ↔ y = x ∨ y ∈ pre ++ post := fun y =>
      perm_middle.mem_iff.trans mem_cons
    simp only [hmem] at hlabels
    simp only [update, labels_join]
    cases hi : x.2.label? with
    | none =>
      have hx : (id, label name) ≠ x := fun he => by simp [← he, label?] at hi
      rw [Option.elim_none, hlabels, or_iff_right hx]
    | some name' =>
      have hx := label?_eq_some.mp hi
      rw [Option.elim_some, Std.TreeMap.getElem?_erase]
      by_cases hname : name' = name
      · subst hname
        have hfound := (hlabels name' x.1).mpr (.inl (by rw [← hx]))
        refine ⟨fun hnone => by simp at hnone, fun hold => ?_⟩
        rw [(hlabels name' id).mpr (.inr hold)] at hfound
        exact absurd (Option.some.inj hfound) (hne _ hold)
      · have hx : (id, label name) ≠ x := fun he => by simp [← he, label?, Ne.symm hname] at hi
        rw [if_neg (by simpa using hname), hlabels, or_iff_right hx]

include hq in
/-- Taking items out one after the other leaves the others. -/
theorem unlinkAll {test : Nat × Instr → Bool} {gone : List (Nat × Instr)}
    (hgone : q.items.filter (fun x => !test x) = gone) :
    (gone.foldl (fun a x => (a.unlink x.1).2) a).Chains { q with items := q.items.filter test } := by
  induction gone generalizing a q with
  | nil =>
    have hall : q.items.filter test = q.items := by
      simpa using hgone
    rw [hall]
    exact h
  | cons x gone ih =>
    obtain ⟨pre, post, hsplit, hpre, hx, hrest⟩ := filter_eq_cons_iff.mp hgone
    have hkept : q.items.filter test = (pre ++ post).filter test := by
      rw [hsplit, filter_append, filter_append, filter_cons_of_neg (by simpa using hx)]
    have hleft : (pre ++ post).filter (fun x => !test x) = gone := by
      rw [filter_append, filter_eq_nil_iff.mpr hpre, hrest]
      rfl
    have hnumbered : ({ q with items := pre ++ post } : Sequence).Numbered := by
      refine hq.sublist ?_
      rw [hsplit]
      exact (Sublist.refl _).append (sublist_cons_self _ _)
    rw [hkept]
    exact ih (h.unlink hq hsplit).2 hnumbered hleft

include hq in
theorem remove (id : Nat) : Edit.Answer.instr (a.remove id).1 = (q.perform (.remove id)).1 ∧
    (a.remove id).2.Chains (q.perform (.remove id)).2 := by
  rcases hq.remove_cases id with ⟨hq', hid⟩ | ⟨_, i, _, hi, hsplit, hq'⟩
  · rw [hq', Arena.remove]
    cases hget : a.get? id with
    | none =>
      have hnone : a.cell? id = none := by simpa [get?] using hget
      simp [Arena.unlink, hnone, h]
    | some i =>
      rw [Option.any_some, if_pos (hid i ((h.get?_eq_some id i).mp hget))]
      exact ⟨rfl, h⟩
  · have hget : a.get? id = some i := (h.get?_eq_some id i).mpr (by simp [hsplit])
    obtain ⟨hold, hchains⟩ := h.unlink hq hsplit
    rw [hq', Arena.remove, hget, Option.any_some, hi]
    exact ⟨congrArg _ hold, hchains⟩

/-- Instructions may change in their cells, as long as labels stay. -/
theorem changed {cells : Array Cell} (hids : ∀ x ∈ q.items, (g x).1 = x.1)
    (hlabels : ∀ x ∈ q.items, (g x).2.label? = x.2.label?) (hsize : cells.size = a.cells.size)
    (hlinks : ∀ pre x post, q.items = pre ++ x :: post → cells[x.1]? = some ⟨(g x).2, lastOf pre, firstOf post, true⟩)
    (hremoved : ∀ k ∉ q.ids, cells[k]?.filter Cell.live = none) :
    ({ a with cells, modified := true } : Arena).Chains { q with items := q.items.map g } where
  cells := hsize.trans h.cells
  links := by
    rintro _ _ _ hsplit
    obtain ⟨pre, _, hxs, rfl, htail⟩ := map_eq_append_iff.mp hsplit
    obtain ⟨x, post, rfl, rfl, rfl⟩ := map_eq_cons_iff.mp htail
    simp only [hxs, forall_mem_append, forall_mem_cons] at hids
    rw [hids.2.1, hlinks pre x post hxs, firstOf_map hids.2.2, lastOf_map hids.1]
  removed k hk := hremoved k (by rwa [ids, map_fst_map hids] at hk)
  head := by rw [h.head, firstOf_map hids]
  tail := by rw [h.tail, lastOf_map hids]
  size := by rw [h.size, length_map]
  labels name id := by
    rw [h.labels, mem_map]
    constructor
    · intro hmem
      refine ⟨_, hmem, Prod.ext (hids _ hmem) (label?_eq_some.mp ((hlabels _ hmem).trans rfl))⟩
    · rintro ⟨x, hx, he⟩
      have hlabel := hlabels x hx
      have hid := hids x hx
      rw [he] at hlabel hid
      rwa [← Prod.ext hid (label?_eq_some.mp hlabel.symm).symm] at hx
  nextLabel := h.nextLabel

include hq in
theorem replace (id : Nat) (i : Instr) : Edit.Answer.instr (a.replace id i).1 = (q.perform (.replace id i)).1 ∧
    (a.replace id i).2.Chains (q.perform (.replace id i)).2 := by
  rcases hq.replace_cases id i with ⟨hq', hid⟩ | ⟨pre, j, post, hi, hj, hsplit, hq'⟩
  · rw [hq', Arena.replace]
    cases hget : a.get? id with
    | none => exact ⟨rfl, h⟩
    | some j =>
      have hlabel : (j.label?.isSome || i.label?.isSome) = true := by
        rw [Bool.or_eq_true]
        exact hid.symm.imp_left fun hid => hid j ((h.get?_eq_some id j).mp hget)
      simp only [hlabel, if_true]
      exact ⟨trivial, h⟩
  · have hget : a.get? id = some j := (h.get?_eq_some id j).mpr (by simp [hsplit])
    have hlabel : ¬i.label?.isSome = true := by simp [hi]
    rw [perform, if_neg hlabel] at hq' ⊢
    simp only [Arena.replace, hget, hi, hj]
    refine ⟨(congrArg Prod.fst hq').symm, h.changed (fun x _ => fst_replaced id i x)
      (fun x _ => label?_replaced id hi x) (by simp [update]) (fun pre x post hx => ?_) fun k hk => ?_⟩
    · by_cases hid : x.1 = id
      · have hx' : x.2 = j := Option.some.inj (((h.get?_eq_some x.1 x.2).mpr (by simp [hx])).symm.trans (hid ▸ hget))
        rw [update, Array.getElem?_modify, if_pos hid.symm, h.links pre x post hx, if_pos ⟨hid, hx' ▸ hj⟩]
        rfl
      · rw [cells_update_of_ne hid, h.links pre x post hx, if_neg fun hc => hid hc.1]
    · rw [cells_update_of_ne fun heq => hk (by simp [ids, hsplit, heq])]
      exact h.removed k hk

include hq in
/-- The instructions of the sequence are those in the cells of nodes that were not removed. -/
theorem instrs_perm : ((a.cells.toList.filter Cell.live).map Cell.instr).Perm (q.items.map Prod.snd) := by
  -- the numbers of the cells tell them apart
  have hcells : (a.cells.toList.filter Cell.live).map Cell.instr =
      ((a.cells.toList.zipIdx.filter (·.1.live)).map fun x => (x.2, x.1.instr)).map Prod.snd := by
    rw [map_map]
    show _ = (a.cells.toList.zipIdx.filter (Cell.live ∘ Prod.fst)).map (Cell.instr ∘ Prod.fst)
    rw [← map_map, ← filter_map, zipIdx_map_fst]
  rw [hcells]
  refine .map _ ((perm_ext_iff_of_nodup ?_ (.of_map Prod.fst hq.ids_nodup)).mpr fun x => ?_)
  · refine Nodup.of_map Prod.fst ?_
    rw [map_map]
    refine (filter_sublist.map _).nodup ?_
    show (a.cells.toList.zipIdx.map Prod.snd).Nodup
    rw [zipIdx_map_snd]
    exact nodup_range'
  · obtain ⟨k, j⟩ := x
    rw [← h.get?_eq_some]
    simp only [mem_map, mem_filter, Prod.exists, mem_zipIdx_iff_getElem?, Prod.mk.injEq, get?, cell?,
      Option.map_eq_some_iff, Option.filter_eq_some_iff, Array.getElem?_toList]
    constructor
    · rintro ⟨c, _, hc, rfl, hj⟩
      exact ⟨c, hc, hj⟩
    · rintro ⟨c, hc, hj⟩
      exact ⟨c, k, hc, rfl, hj⟩

include hq in
theorem redirect (f : Label → Label) : (a.redirect f).1 = q.targets.countP (fun t => f t != t) ∧
    (a.redirect f).2.Chains { q with items := q.items.map fun x => (x.1, x.2.mapTargets f) } := by
  have hcount : ((a.cells.toList.filter Cell.live).flatMap (·.instr.targets)).countP (fun t => f t != t) =
      q.targets.countP fun t => f t != t := by
    have hperm := (h.instrs_perm hq).flatMap_right Instruction.targets
    rw [flatMap_map, flatMap_map] at hperm
    exact hperm.countP_eq _
  unfold Arena.redirect
  dsimp only
  rw [hcount]
  split
  · -- renaming is the identity on every item
    rename_i hzero
    have hsame : (q.items.map fun x => (x.1, x.2.mapTargets f)) = q.items := by
      refine (map_congr_left fun x hx => ?_).trans (map_id _)
      rw [mapTargets_eq_self fun t ht => ?_]
      · rfl
      · simpa using countP_eq_zero.mp hzero t (mem_flatMap.mpr ⟨x, hx, ht⟩)
    rw [hsame, hzero]
    exact ⟨rfl, h⟩
  · refine ⟨rfl, h.changed (fun _ _ => rfl) (fun x _ => label?_mapTargets f x.2) (by simp)
      (fun pre x post hsplit => ?_) fun k hk => ?_⟩
    · rw [Array.getElem?_map, h.links pre x post hsplit]
      rfl
    · have hnone := h.removed k hk
      rw [cell?, Option.filter_eq_none_iff] at hnone
      rw [Array.getElem?_map, Option.filter_eq_none_iff]
      intro _ hsome
      obtain ⟨c, hc, rfl⟩ := Option.map_eq_some_iff.mp hsome
      rw [if_neg (hnone c hc)]
      exact hnone c hc

end Chains

end Arena

namespace ArenaBody.Shows

open Sequence (Answers)

variable {c : ArenaBody} (h : c.Shows q) (hq : q.Numbered)

include h

theorem with_code {left : Sequence} (hchains : a.Chains left) (hranges : left.ranges = q.ranges)
    (hlocals : left.locals = q.locals) : ({ c with code := a } : ArenaBody).Shows left :=
  ⟨hchains, h.ranges.trans hranges.symm, h.locals.trans hlocals.symm⟩

include hq

theorem redirect (f : Label → Label) (handlers : Bool) :
    Edit.Answer.count (c.redirect f handlers).1 = (q.perform (.redirect f handlers)).1 ∧
      (c.redirect f handlers).2.Shows (q.perform (.redirect f handlers)).2 := by
  obtain ⟨hcount, hchains⟩ := h.code.redirect hq f
  have hcode : ∀ ranges, (c.code.redirect f).2.Chains
      { q with items := q.items.map fun x => (x.1, x.2.mapTargets f), ranges } := fun ranges =>
    ⟨hchains.cells, hchains.links, hchains.removed, hchains.head, hchains.tail, hchains.size, hchains.labels,
      hchains.nextLabel⟩
  simp only [ArenaBody.redirect, hcount, h.ranges]
  cases handlers with
  | false => exact ⟨rfl, hcode _, rfl, h.locals⟩
  | true =>
    simp only [if_true]
    split
    · rename_i hzero
      have hsame := Body.map_handler_eq_self f (Nat.eq_zero_of_add_eq_zero_left hzero)
      exact ⟨congrArg _ hzero.symm, hcode _, hsame.symm, h.locals⟩
    · exact ⟨rfl, hcode _, rfl, h.locals⟩

theorem pruneLabels : Edit.Answer.count c.pruneLabels.1 = (q.perform .prune).1 ∧
    c.pruneLabels.2.Shows (q.perform .prune).2 := by
  have hset : c.referencedSet = .ofList q.used := by
    rw [referencedSet, h.code.pairs_eq hq, h.ranges, h.locals]
    rfl
  have htest : ∀ x : Nat × Instr, x.2.label?.all c.referencedSet.contains = x.2.label?.all (· ∈ q.used) := by
    intro x
    cases x.2.label? <;> simp [hset]
  simp only [ArenaBody.pruneLabels, h.code.pairs_eq hq, htest]
  refine ⟨congrArg _ ?_, h.with_code (h.code.unlinkAll hq rfl) rfl rfl⟩
  rw [← countP_eq_length_filter]
  refine countP_congr fun x _ => ?_
  cases x.2.label? <;> simp

/-- Every edit answers what the sequence answers and leaves what shows the sequence that is left, as long as there are
numbers for nodes and labels. -/
theorem edit (hleft : q.nextLabel ≤ 4294967295) {e : Edit} (he : q.Admits e)
    (hfit : (q.perform e).2.issued ≤ 4294967296) : Answers Shows (c.edit e) (q.perform e) := by
  have hedited : ∀ {x : Edit.Answer × Sequence} {answer : Edit.Answer} {d : ArenaBody},
      answer = x.1 ∧ d.Shows x.2 → x.2.nextLabel = q.nextLabel → Answers Shows (.ok (answer, d)) x := by
    rintro x _ d ⟨rfl, hshows⟩ hnext
    exact .of_ok hleft hshows hnext
  cases e with
  | push i => exact (h.code.push hq hfit he hleft).map fun _ hchains => h.with_code hchains rfl rfl
  | pushLabel => exact (h.code.pushLabel hq hfit).map fun _ hchains => h.with_code hchains rfl rfl
  | newLabel => exact h.code.newLabel.map fun _ hchains => h.with_code hchains rfl rfl
  | insertBefore id i =>
    exact (h.code.insertBefore hq hfit he.2 hleft he.1).map fun _ hchains => h.with_code hchains rfl rfl
  | insertAfter id i =>
    exact (h.code.insertAfter hq hfit he.2 hleft he.1).map fun _ hchains => h.with_code hchains rfl rfl
  | remove id =>
    obtain ⟨hold, hchains⟩ := h.code.remove hq id
    exact hedited ⟨hold, h.with_code hchains rfl rfl⟩ rfl
  | replace id i =>
    obtain ⟨hold, hchains⟩ := h.code.replace hq id i
    have hkept : (q.perform (.replace id i)).2.ranges = q.ranges ∧ (q.perform (.replace id i)).2.locals = q.locals ∧
        (q.perform (.replace id i)).2.nextLabel = q.nextLabel := by
      rw [perform]
      split <;> exact ⟨rfl, rfl, rfl⟩
    exact hedited ⟨hold, h.with_code hchains hkept.1 hkept.2.1⟩ hkept.2.2
  | redirect f handlers => exact hedited (h.redirect hq f handlers) rfl
  | prune => exact hedited (h.pruneLabels hq) rfl
  | tables ranges locals =>
    have hcode := h.code
    exact hedited ⟨rfl, ⟨hcode.cells, hcode.links, hcode.removed, hcode.head, hcode.tail, hcode.size, hcode.labels,
      hcode.nextLabel⟩, rfl, rfl⟩ rfl

end ArenaBody.Shows

/-! ### Every series of edits -/

/-- Edits of a body that starts without instructions, each admitted by what those before it leave, are those of a
plain sequence, on cells as well as on strands: the answers are the same and the look-ups find what stands in the
sequence, and a number that is gone never comes back. Only labels can run out of numbers, and then there is no answer at
all. -/
theorem ArenaBody.editAll_reads (maxStack maxLocals : UInt16) (ranges : List Range) (locals : List Variable)
    {edits : List Edit} (h : ({ ranges, locals } : Sequence).AdmitsAll edits)
    (hfit : (({ ranges, locals } : Sequence).performAll edits).2.issued ≤ 4294967296) :
    let start : Sequence := { ranges, locals }
    let left := (start.performAll edits).2
    let cells : ArenaBody := { ranges, locals }
    let strands : Body := { maxStack, maxLocals, ranges, locals }
    (left.nextLabel ≤ 4294967295 → ∃ c b, cells.editAll edits = .ok ((start.performAll edits).1, c) ∧
        strands.editAll edits = .ok ((start.performAll edits).1, b) ∧
        c.code.view.Reads left.items ∧ b.code.view.Reads left.items ∧
        c.ranges = left.ranges ∧ b.ranges = left.ranges ∧ c.locals = left.locals ∧ b.locals = left.locals) ∧
      (4294967295 < left.nextLabel →
        cells.editAll edits = .error .labelOverflow ∧ strands.editAll edits = .error .labelOverflow) ∧
      ∀ n, ∀ id ∈ left.ids, id ∈ (start.performAll (edits.take n)).2.ids ∨
        ∀ m ≤ n, id ∉ (start.performAll (edits.take m)).2.ids := by
  intro start left cells strands
  have hstart : start.Numbered := numbered_empty ranges locals
  have hempty : ({} : Arena).Chains start :=
    ⟨rfl, fun _ _ _ hsplit => by simp [start] at hsplit, fun _ _ => rfl, rfl, rfl, rfl, by simp [start], rfl⟩
  have hcells : Sequence.Answers Shows (cells.editAll edits) (start.performAll edits) :=
    .runAll (fun h hq he hleft hfit => h.edit hq hleft he hfit) ⟨hempty, rfl, rfl⟩ hstart h (Nat.zero_le _) hfit
  have hstrands : Sequence.Answers Body.Shows (strands.editAll edits) (start.performAll edits) :=
    .runAll (fun h hq he hleft _ => h.edit hq hleft he) ⟨rfl, rfl, rfl, rfl, rfl⟩ hstart h (Nat.zero_le _) hfit
  refine ⟨fun hleft => ?_, fun hnone => ⟨hcells.overflow hnone, hstrands.overflow hnone⟩,
    fun n id hid => ids_take hstart h n hid⟩
  obtain ⟨c, hc, hshown⟩ := hcells.ok hleft
  obtain ⟨b, hb, hshown'⟩ := hstrands.ok hleft
  have hnumbered := hstart.performAll h
  exact ⟨c, b, hc, hb, hshown.code.reads hnumbered, hshown'.reads hnumbered, hshown.ranges, hshown'.ranges,
    hshown.locals, hshown'.locals⟩

/-- Edits of every kind: of two labels the second takes over the jump to the first, which then goes, and so does one
of the instructions that were inserted. -/
def mixedEdits : List Edit :=
  [.pushLabel, .pushLabel, .push (.jump 0), .insertBefore 2 (.line 7), .insertAfter 2 (.plain Opcode.nop),
    .remove 4, .remove 0, .replace 3 (.plain Opcode.nop), .redirect (fun t => if t = 0 then 1 else t) false, .prune,
    .push (.line 8)]

theorem editAll_mixedEdits :
    ({} : Sequence).AdmitsAll mixedEdits ∧ (({} : Sequence).performAll mixedEdits).2.issued ≤ 4294967296 ∧
      ∃ c b, ({} : ArenaBody).editAll mixedEdits =
          .ok ([.label 0, .label 1, .node 2, .node 3, .node 4, .instr (some (.plain Opcode.nop)), .instr none,
            .instr (some (.line 7)), .count 1, .count 1, .node 5], c) ∧
        ({ maxStack := 0, maxLocals := 0 } : Body).editAll mixedEdits =
          .ok ([.label 0, .label 1, .node 2, .node 3, .node 4, .instr (some (.plain Opcode.nop)), .instr none,
            .instr (some (.line 7)), .count 1, .count 1, .node 5], b) ∧
        c.code.view.Reads [(1, .label 1), (3, .plain Opcode.nop), (2, .jump 1), (5, .line 8)] ∧
        b.code.view.Reads [(1, .label 1), (3, .plain Opcode.nop), (2, .jump 1), (5, .line 8)] ∧
        c.ranges = [] ∧ b.ranges = [] ∧ c.locals = [] ∧ b.locals = [] := by
  have hadmits : ({} : Sequence).AdmitsAll mixedEdits := by
    simp [mixedEdits, Sequence.AdmitsAll, Sequence.Admits, perform, issue, ids, label?]
  exact ⟨hadmits, by decide, (ArenaBody.editAll_reads 0 0 [] [] hadmits (by decide)).1 (by decide)⟩

/-- The last number that 32 bits have is none for a label. -/
theorem editAll_last_label :
    ({} : Sequence).AdmitsAll [.push (.label 4294967295)] ∧
      ({} : ArenaBody).editAll [.push (.label 4294967295)] = .error .labelOverflow :=
  ⟨⟨fun _ _ => not_mem_nil, trivial⟩, rfl⟩

end Untangle
