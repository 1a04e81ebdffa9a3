import Mathlib.Data.List.Perm.Basic
import Untangle.Code.Arena
import Untangle.Proofs.Code.Listing

/-!
# Sequences of numbered instructions

What the listing of a body is meant to be: a plain sequence of instructions with numbers. `Sequence.perform` says
what each edit does to it, in terms of appending, inserting, filtering and mapping.

An edit is admitted if it inserts only next to a number that is there and places no label where it already stands.
As long as only such edits are made, no number and no label stands twice, and a number that is gone never comes back.
-/

namespace Untangle

open List

variable {items : List (Nat × Instr)} {id : Nat} {γ δ : Type} {i : Instr} {pre post : List (Nat × Instr)} {e : Edit}
  {answer : α} {left : Sequence} {f : Nat × Instr → Nat × Instr}

/-- Instructions in order, each with its number, and what further numbers depend on. -/
structure Sequence where
  items : List (Nat × Instr) := []
  /-- How many numbers were given out. -/
  issued : Nat := 0
  /-- A label above all that were placed or given out. -/
  nextLabel : Label := 0
  ranges : List Range := []
  locals : List Variable := []

namespace Sequence

variable {q : Sequence} {es : List Edit}

def ids (q : Sequence) : List Nat := q.items.map Prod.fst

/-- The labels that stand in the sequence. -/
def labels (q : Sequence) : List Label := q.items.filterMap (·.2.label?)

/-- The labels that jumps and switches name. -/
def targets (q : Sequence) : List Label := q.items.flatMap (·.2.targets)

/-- The labels that something refers to. -/
def used (q : Sequence) : List Label :=
  q.targets ++ q.ranges.flatMap (fun r => [r.start, r.stop, r.handler]) ++
    q.locals.flatMap fun v => [v.start, v.stop]

/-- The instruction with a number, unless it is a label. -/
def unbound? (q : Sequence) (id : Nat) : Option Instr :=
  ((q.items.find? (·.1 == id)).map Prod.snd).filter (·.label?.isNone)

/-- The sequence with other items, for one of which a number was given out. -/
def issue (q : Sequence) (i : Instr) (items : List (Nat × Instr)) : Sequence :=
  { q with items, issued := q.issued + 1
           nextLabel := i.label?.elim q.nextLabel fun l => max q.nextLabel (l + 1) }

/-- What an edit does to a sequence. -/
def perform (q : Sequence) : Edit → Edit.Answer × Sequence
  | .push i => (.node q.issued, q.issue i (q.items ++ [(q.issued, i)]))
  | .pushLabel =>
    (.label q.nextLabel, q.issue (.label q.nextLabel) (q.items ++ [(q.issued, .label q.nextLabel)]))
  | .newLabel => (.label q.nextLabel, { q with nextLabel := q.nextLabel + 1 })
  | .insertBefore id i =>
    (.node q.issued, q.issue i (q.items.flatMap fun x => if x.1 = id then [(q.issued, i), x] else [x]))
  | .insertAfter id i =>
    (.node q.issued, q.issue i (q.items.flatMap fun x => if x.1 = id then [x, (q.issued, i)] else [x]))
  | .remove id =>
    (.instr (q.unbound? id), { q with items := q.items.filter fun x => x.1 != id || x.2.label?.isSome })
  | .replace id i =>
    if i.label?.isSome then (.instr none, q)
    else
      (.instr (q.unbound? id),
        { q with items := q.items.map fun x => if x.1 = id ∧ x.2.label? = none then (id, i) else x })
  | .redirect f handlers =>
    (.count (q.targets.countP (fun t => f t != t) +
        if handlers then q.ranges.countP fun r => f r.handler != r.handler else 0),
      { q with items := q.items.map fun x => (x.1, x.2.mapTargets f)
               ranges := if handlers then q.ranges.map fun r => { r with handler := f r.handler } else q.ranges })
  | .prune =>
    (.count (q.items.countP fun x => x.2.label?.any (· ∉ q.used)),
      { q with items := q.items.filter fun x => x.2.label?.all (· ∈ q.used) })
  | .tables ranges locals => (.done, { q with ranges, locals })

/-- What a series of edits does, with all answers. -/
def performAll (q : Sequence) : List Edit → List Edit.Answer × Sequence
  | [] => ([], q)
  | e :: es => ((q.perform e).1 :: ((q.perform e).2.performAll es).1, ((q.perform e).2.performAll es).2)

/-- Something is inserted only next to a number that is there, and no label is placed where it already stands. -/
def Admits (q : Sequence) : Edit → Prop
  | .push i => ∀ l ∈ i.label?, l ∉ q.labels
  | .insertBefore id i | .insertAfter id i => id ∈ q.ids ∧ ∀ l ∈ i.label?, l ∉ q.labels
  | _ => True

/-- Each of the edits is admitted by what those before it leave. -/
def AdmitsAll (q : Sequence) : List Edit → Prop
  | [] => True
  | e :: es => q.Admits e ∧ (q.perform e).2.AdmitsAll es

/-- A label that was just given out is placed as the one that comes next would be. -/
theorem issue_given (q : Sequence) (items : List (Nat × Instr)) :
    ({ q with nextLabel := q.nextLabel + 1 } : Sequence).issue (.label q.nextLabel) items =
      q.issue (.label q.nextLabel) items := by
  have hmax : max (q.nextLabel + 1) (q.nextLabel + 1) = max q.nextLabel (q.nextLabel + 1) := by
    rw [Nat.max_self, Nat.max_eq_right (Nat.le_succ _)]
  rw [issue, issue, Instruction.label?, Option.elim_some, Option.elim_some, hmax]

/-! ### Numbers and labels stand once -/

/-- Changing instructions in their places leaves the numbers as they are. -/
theorem map_fst_map (hf : ∀ x ∈ items, (f x).1 = x.1) : (items.map f).map Prod.fst = items.map Prod.fst := by
  rw [map_map]
  exact map_congr_left hf

theorem fst_replaced (id : Nat) (i : Instr) (x : Nat × Instr) :
    (if x.1 = id ∧ x.2.label? = none then (id, i) else x).1 = x.1 := by
  split
  · rename_i hx
    exact hx.1.symm
  · rfl

theorem label?_replaced (id : Nat) (hi : i.label? = none) (x : Nat × Instr) :
    (if x.1 = id ∧ x.2.label? = none then (id, i) else x).2.label? = x.2.label? := by
  split
  · rename_i hx
    rw [hx.2, hi]
  · rfl

/-- A number stands at one place only. -/
theorem ne_of_nodup {pre post : List (Nat × Instr)} {x : Nat × Instr} (hids : ((pre ++ x :: post).map Prod.fst).Nodup) :
    ∀ y ∈ pre ++ post, y.1 ≠ x.1 := by
  rw [map_append, map_cons, nodup_middle, nodup_cons, ← map_append] at hids
  exact fun y hy heq => hids.1 (heq ▸ mem_map_of_mem hy)

/-- No number and no label stands twice or will be given out again. -/
structure Numbered (q : Sequence) : Prop where
  ids_nodup : q.ids.Nodup
  ids_lt : ∀ id ∈ q.ids, id < q.issued
  labels_nodup : q.labels.Nodup
  labels_lt : ∀ l ∈ q.labels, l < q.nextLabel

namespace Numbered

variable {q : Sequence} (h : q.Numbered)

include h

/-- A new number and a label that stands nowhere can be put anywhere. -/
theorem issue (hitems : items.Perm ((q.issued, i) :: q.items)) (hfresh : ∀ l ∈ i.label?, l ∉ q.labels) :
    (q.issue i items).Numbered := by
  have hids : (q.issue i items).ids.Perm (q.issued :: q.ids) := hitems.map Prod.fst
  have hlabels : (q.issue i items).labels.Perm (i.label?.toList ++ q.labels) := by
    refine (hitems.filterMap _).trans (.of_eq ?_)
    cases hl : i.label? <;> simp [labels, hl]
  refine ⟨hids.nodup_iff.mpr (nodup_cons.mpr ⟨fun hmem => ?_, h.ids_nodup⟩), fun id hid => ?_,
    hlabels.nodup_iff.mpr ?_, fun l hl => ?_⟩
  · exact Nat.lt_irrefl _ (h.ids_lt _ hmem)
  · show id < q.issued + 1
    rcases mem_cons.mp (hids.mem_iff.mp hid) with rfl | hold
    · omega
    · have := h.ids_lt id hold
      omega
  · cases hi : i.label? with
    | none => exact h.labels_nodup
    | some l => exact nodup_cons.mpr ⟨hfresh l (by rw [hi]; rfl), h.labels_nodup⟩
  · have hold := hlabels.mem_iff.mp hl
    show l < i.label?.elim q.nextLabel fun l => max q.nextLabel (l + 1)
    cases hi : i.label? with
    | none =>
      rw [hi] at hold
      exact h.labels_lt l hold
    | some m =>
      rw [hi] at hold
      rcases mem_cons.mp hold with rfl | hold
      · exact Nat.lt_of_lt_of_le (Nat.lt_succ_self l) (Nat.le_max_right _ _)
      · exact Nat.lt_of_lt_of_le (h.labels_lt l hold) (Nat.le_max_left _ _)

/-- Nothing is given out by taking something away. -/
theorem sublist (hitems : items.Sublist q.items) : ({ q with items } : Sequence).Numbered := by
  have hids : (items.map Prod.fst).Sublist q.ids := hitems.map Prod.fst
  have hlabels : (items.filterMap (·.2.label?)).Sublist q.labels := hitems.filterMap _
  exact ⟨h.ids_nodup.sublist hids, fun id hid => h.ids_lt id (hids.subset hid), h.labels_nodup.sublist hlabels,
    fun l hl => h.labels_lt l (hlabels.subset hl)⟩

/-- Instructions can be changed in their places, as long as labels stay labels. -/
theorem map (hid : ∀ x ∈ q.items, (f x).1 = x.1) (hlabel : ∀ x ∈ q.items, (f x).2.label? = x.2.label?)
    (ranges : List Range) : ({ q with items := q.items.map f, ranges } : Sequence).Numbered := by
  have hids : ({ q with items := q.items.map f, ranges } : Sequence).ids = q.ids := map_fst_map hid
  have hlabels : ({ q with items := q.items.map f, ranges } : Sequence).labels = q.labels := by
    rw [labels, filterMap_map]
    exact filterMap_congr hlabel
  exact ⟨hids ▸ h.ids_nodup, hids ▸ h.ids_lt, hlabels ▸ h.labels_nodup, hlabels ▸ h.labels_lt⟩

theorem ne_of_split {x : Nat × Instr} (hsplit : q.items = pre ++ x :: post) : ∀ y ∈ pre ++ post, y.1 ≠ x.1 :=
  ne_of_nodup (hsplit ▸ h.ids_nodup)

/-- The label that comes next stands nowhere. -/
theorem next_fresh : ∀ l ∈ (Instruction.label q.nextLabel : Instr).label?, l ∉ q.labels := by
  rintro _ ⟨⟩ hl
  exact Nat.lt_irrefl _ (h.labels_lt _ hl)

end Numbered

theorem exists_split (hid : id ∈ q.ids) : ∃ pre i post, q.items = pre ++ (id, i) :: post := by
  obtain ⟨⟨_, i⟩, hmem, rfl⟩ := mem_map.mp hid
  obtain ⟨pre, post, hsplit⟩ := append_of_mem hmem
  exact ⟨pre, i, post, hsplit⟩

section

variable (h : q.Numbered)

include h

/-- Only the item with a number is changed. -/
theorem Numbered.flatMap_split (hsplit : q.items = pre ++ (id, i) :: post) (f : Nat × Instr → List (Nat × Instr)) :
    (q.items.flatMap fun x => if x.1 = id then f x else [x]) = pre ++ (f (id, i) ++ post) := by
  have hne := forall_mem_append.mp (h.ne_of_split hsplit)
  have hsame : ∀ xs : List (Nat × Instr), (∀ x ∈ xs, x.1 ≠ id) →
      (xs.flatMap fun x => if x.1 = id then f x else [x]) = xs := by
    intro xs hxs
    rw [flatMap_congr fun x hx => if_neg (hxs x hx), flatMap_singleton']
  rw [hsplit, flatMap_append, flatMap_cons, hsame pre hne.1, hsame post hne.2, if_pos rfl]

/-- What is inserted next to a number is one item more. -/
theorem Numbered.perm_insert (hid : id ∈ q.ids) {new : Nat × Instr} {f : Nat × Instr → List (Nat × Instr)}
    (hf : ∀ x, (f x).Perm [new, x]) :
    (q.items.flatMap fun x => if x.1 = id then f x else [x]).Perm (new :: q.items) := by
  obtain ⟨pre, i, post, hsplit⟩ := exists_split hid
  rw [h.flatMap_split hsplit, hsplit]
  have hmiddle : (pre ++ new :: (id, i) :: post).Perm (new :: (pre ++ (id, i) :: post)) := perm_middle
  exact .trans (.append_left pre ((hf (id, i)).append_right post)) hmiddle

/-- One edit keeps numbers and labels apart. -/
theorem Numbered.perform (he : q.Admits e) : (q.perform e).2.Numbered := by
  cases e with
  | push i => exact h.issue (perm_append_singleton _ _) he
  | pushLabel =>
    refine h.issue (perm_append_singleton _ _) ?_
    rintro l ⟨⟩ hl
    exact Nat.lt_irrefl _ (h.labels_lt _ hl)
  | newLabel => exact ⟨h.ids_nodup, h.ids_lt, h.labels_nodup, fun l hl => Nat.lt_succ_of_lt (h.labels_lt l hl)⟩
  | insertBefore id i => exact h.issue (h.perm_insert he.1 fun x => .refl _) he.2
  | insertAfter id i => exact h.issue (h.perm_insert he.1 fun x => .swap _ _ _) he.2
  | remove id => exact h.sublist filter_sublist
  | replace id i =>
    simp only [Sequence.perform]
    split
    · exact h
    · rename_i hi
      exact h.map (fun x _ => fst_replaced id i x) (fun x _ => label?_replaced id (by simpa using hi) x) q.ranges
  | redirect f =>
    exact h.map (f := fun x => (x.1, x.2.mapTargets f)) (fun _ _ => rfl)
      (fun x _ => Instruction.label?_mapTargets f x.2) _
  | prune => exact h.sublist filter_sublist
  | tables ranges => exact ⟨h.ids_nodup, h.ids_lt, h.labels_nodup, h.labels_lt⟩

/-- A number is that of an instruction at one place, or only of a label, or of nothing. -/
theorem Numbered.unbound?_cases (id : Nat) :
    (q.unbound? id = none ∧ ∀ i, (id, i) ∈ q.items → i.label?.isSome = true) ∨
      ∃ pre i post, i.label? = none ∧ q.unbound? id = some i ∧ q.items = pre ++ (id, i) :: post := by
  by_cases hid : id ∈ q.ids
  · obtain ⟨pre, i, post, hsplit⟩ := exists_split hid
    have hne := h.ne_of_split hsplit
    have hfind : q.items.find? (·.1 == id) = some (id, i) := by
      rw [hsplit, find?_append, find?_eq_none.mpr fun x hx => by simpa using hne x (by simp [hx])]
      simp
    cases hi : i.label? with
    | none => exact .inr ⟨pre, i, post, hi, by simp [unbound?, hfind, hi], hsplit⟩
    | some =>
      refine .inl ⟨by simp [unbound?, hfind, hi], fun j hj => ?_⟩
      rw [hsplit, mem_append, mem_cons] at hj
      rcases hj with hj | hj | hj
      · exact absurd rfl (hne (id, j) (mem_append_left _ hj))
      · cases hj
        rw [hi]
        rfl
      · exact absurd rfl (hne (id, j) (mem_append_right _ hj))
  · refine .inl ⟨?_, fun i hi => absurd (mem_map_of_mem hi) hid⟩
    rw [unbound?, find?_eq_none.mpr fun x hx heq => hid ?_]
    · rfl
    · rw [← eq_of_beq heq]
      exact mem_map_of_mem hx

/-- Removing takes out one item that is no label, or does nothing. -/
theorem Numbered.remove_cases (id : Nat) :
    (q.perform (.remove id) = (.instr none, q) ∧ ∀ i, (id, i) ∈ q.items → i.label?.isSome = true) ∨
      ∃ pre i post, i.label? = none ∧ q.items = pre ++ (id, i) :: post ∧
        q.perform (.remove id) = (.instr (some i), { q with items := pre ++ post }) := by
  rcases h.unbound?_cases id with ⟨hnone, hlabel⟩ | ⟨pre, i, post, hi, hsome, hsplit⟩
  · have hitems : (q.items.filter fun x => x.1 != id || x.2.label?.isSome) = q.items := by
      rw [filter_eq_self]
      rintro ⟨k, i⟩ hx
      by_cases heq : k = id
      · simp [hlabel i (heq ▸ hx)]
      · simp [heq]
    exact .inl ⟨by rw [Sequence.perform, hnone, hitems], hlabel⟩
  · have hne := forall_mem_append.mp (h.ne_of_split hsplit)
    have hitems : (q.items.filter fun x => x.1 != id || x.2.label?.isSome) = pre ++ post := by
      rw [hsplit, filter_append, filter_cons_of_neg (by simp [hi]), filter_eq_self.mpr fun x hx => by simp [hne.1 x hx],
        filter_eq_self.mpr fun x hx => by simp [hne.2 x hx]]
    exact .inr ⟨pre, i, post, hi, hsplit, by rw [Sequence.perform, hsome, hitems]⟩

/-- Replacing changes one item that is no label, or does nothing. -/
theorem Numbered.replace_cases (id : Nat) (i : Instr) :
    (q.perform (.replace id i) = (.instr none, q) ∧
        (i.label?.isSome = true ∨ ∀ j, (id, j) ∈ q.items → j.label?.isSome = true)) ∨
      ∃ pre j post, i.label? = none ∧ j.label? = none ∧ q.items = pre ++ (id, j) :: post ∧
        q.perform (.replace id i) = (.instr (some j), { q with items := pre ++ (id, i) :: post }) := by
  by_cases hi : i.label?.isSome = true
  · exact .inl ⟨if_pos hi, .inl hi⟩
  have hsame : ∀ xs : List (Nat × Instr), (∀ x ∈ xs, ¬(x.1 = id ∧ x.2.label? = none)) →
      (xs.map fun x => if x.1 = id ∧ x.2.label? = none then (id, i) else x) = xs := by
    intro xs hxs
    rw [map_congr_left fun x hx => if_neg (hxs x hx), map_id']
  rcases h.unbound?_cases id with ⟨hnone, hlabel⟩ | ⟨pre, j, post, hj, hsome, hsplit⟩
  · refine .inl ⟨?_, .inr hlabel⟩
    rw [Sequence.perform, if_neg hi, hnone, hsame]
    rintro ⟨_, j⟩ hx ⟨rfl, hj⟩
    have hsome := hlabel j hx
    rw [hj] at hsome
    cases hsome
  · have hne := forall_mem_append.mp (h.ne_of_split hsplit)
    refine .inr ⟨pre, j, post, by simpa using hi, hj, hsplit, ?_⟩
    rw [Sequence.perform, if_neg hi, hsome, hsplit, map_append, map_cons,
      hsame pre fun x hx heq => hne.1 x hx heq.1, hsame post fun x hx heq => hne.2 x hx heq.1, if_pos ⟨rfl, hj⟩]

/-! ### Numbers never come back -/

/-- What has a number after an edit had it before, or the number is new. -/
theorem ids_perform (he : q.Admits e) :
    q.issued ≤ (q.perform e).2.issued ∧ ∀ id ∈ (q.perform e).2.ids, id ∈ q.ids ∨ q.issued ≤ id := by
  have hissue : ∀ (i : Instr) (items : List (Nat × Instr)), items.Perm ((q.issued, i) :: q.items) →
      q.issued ≤ (q.issue i items).issued ∧ ∀ id ∈ (q.issue i items).ids, id ∈ q.ids ∨ q.issued ≤ id := by
    intro i items hitems
    refine ⟨Nat.le_succ _, fun id hid => ?_⟩
    rcases mem_cons.mp ((hitems.map Prod.fst).mem_iff.mp hid) with rfl | hold
    · exact .inr (Nat.le_refl _)
    · exact .inl hold
  have hkept : ∀ items : List (Nat × Instr), items.map Prod.fst ⊆ q.ids →
      q.issued ≤ q.issued ∧ ∀ id ∈ items.map Prod.fst, id ∈ q.ids ∨ q.issued ≤ id :=
    fun items hitems => ⟨Nat.le_refl _, fun id hid => .inl (hitems hid)⟩
  cases e with
  | push i => exact hissue i _ (perm_append_singleton _ _)
  | pushLabel => exact hissue _ _ (perm_append_singleton _ _)
  | insertBefore id i => exact hissue i _ (h.perm_insert he.1 fun x => .refl _)
  | insertAfter id i => exact hissue i _ (h.perm_insert he.1 fun x => .swap _ _ _)
  | newLabel | tables => exact hkept q.items (Subset.refl _)
  | remove | prune => exact hkept _ (filter_sublist.map Prod.fst).subset
  | replace id i =>
    simp only [perform]
    split
    · exact hkept q.items (Subset.refl _)
    · apply hkept
      rw [map_fst_map fun x _ => fst_replaced id i x]
      exact Subset.refl _
  | redirect f =>
    apply hkept
    simp only [perform]
    rw [map_fst_map (f := fun x => (x.1, x.2.mapTargets f)) fun _ _ => rfl]
    exact Subset.refl _

theorem ids_performAll (hes : q.AdmitsAll es) :
    q.issued ≤ (q.performAll es).2.issued ∧ ∀ id ∈ (q.performAll es).2.ids, id ∈ q.ids ∨ q.issued ≤ id := by
  induction es generalizing q with
  | nil => exact ⟨Nat.le_refl _, fun id hid => .inl hid⟩
  | cons e es ih =>
    obtain ⟨hle, hone⟩ := ids_perform h hes.1
    obtain ⟨hle', hall⟩ := ih (h.perform hes.1) hes.2
    refine ⟨Nat.le_trans hle hle', fun id hid => ?_⟩
    rcases hall id hid with hid | hid
    · exact hone id hid
    · exact .inr (Nat.le_trans hle hid)

end

theorem performAll_append (q : Sequence) (es fs : List Edit) :
    (q.performAll (es ++ fs)).2 = ((q.performAll es).2.performAll fs).2 := by
  induction es generalizing q with
  | nil => rfl
  | cons e es ih => exact ih (q.perform e).2

theorem admitsAll_append {fs : List Edit} :
    q.AdmitsAll (es ++ fs) ↔ q.AdmitsAll es ∧ (q.performAll es).2.AdmitsAll fs := by
  induction es generalizing q with
  | nil => exact (true_and _).symm ▸ Iff.rfl
  | cons e es ih => exact (and_congr_right fun _ => ih).trans and_assoc.symm

theorem Numbered.performAll (h : q.Numbered) (hes : q.AdmitsAll es) : (q.performAll es).2.Numbered := by
  induction es generalizing q with
  | nil => exact h
  | cons e es ih => exact ih (h.perform hes.1) hes.2

theorem numbered_empty (ranges : List Range) (locals : List Variable) : ({ ranges, locals } : Sequence).Numbered := by
  constructor <;> simp [ids, labels]

/-- What has a number in the end had it after the first `n` edits, or at no time up to then. -/
theorem ids_take (h : q.Numbered) (hes : q.AdmitsAll es) (n : Nat) (hid : id ∈ (q.performAll es).2.ids) :
    id ∈ (q.performAll (es.take n)).2.ids ∨ ∀ m ≤ n, id ∉ (q.performAll (es.take m)).2.ids := by
  rw [← take_append_drop n es, admitsAll_append] at hes
  rw [← take_append_drop n es, performAll_append] at hid
  have hnumbered := h.performAll hes.1
  rcases (ids_performAll hnumbered hes.2).2 id hid with hthen | hnew
  · exact .inl hthen
  · refine .inr fun m hm hmem => ?_
    -- up to then no number was as high
    have hfirst : es.take n = es.take m ++ (es.drop m).take (n - m) := by
      rw [← take_add, Nat.add_sub_cancel' hm]
    rw [hfirst, admitsAll_append] at hes
    rw [hfirst, performAll_append] at hnew
    have hlt := (h.performAll hes.1.1).ids_lt id hmem
    have hle := (ids_performAll (h.performAll hes.1.1) hes.1.2).1
    omega

/-- The label to come next never goes down. -/
theorem nextLabel_performAll (q : Sequence) (es : List Edit) : q.nextLabel ≤ (q.performAll es).2.nextLabel := by
  induction es generalizing q with
  | nil => exact Nat.le_refl _
  | cons e es ih =>
    refine Nat.le_trans ?_ (ih (q.perform e).2)
    have hissue : ∀ i items, q.nextLabel ≤ (q.issue i items).nextLabel := by
      intro i items
      show q.nextLabel ≤ i.label?.elim q.nextLabel fun l => max q.nextLabel (l + 1)
      cases i.label? with
      | none => exact Nat.le_refl _
      | some l => exact Nat.le_max_left _ _
    cases e with
    | push | pushLabel | insertBefore | insertAfter => exact hissue _ _
    | newLabel => exact Nat.le_succ _
    | replace _ i =>
      simp only [perform]
      split <;> exact Nat.le_refl _
    | remove | redirect | prune | tables => exact Nat.le_refl _

/-! ### What carries out edits -/

/-- The answer is that of the sequence, and what is left shows it. Without a number for the next label there is no
answer. -/
structure Answers {α β : Type} (Shows : β → Sequence → Prop) (r : Except Error (α × β)) (x : α × Sequence) : Prop where
  ok : x.2.nextLabel ≤ 4294967295 → ∃ c, r = .ok (x.1, c) ∧ Shows c x.2
  overflow : 4294967295 < x.2.nextLabel → r = .error .labelOverflow

namespace Answers

variable {α β : Type} {Shows : β → Sequence → Prop} {b : β}

/-- An edit that gives out no label always answers. -/
theorem of_ok (hleft : q.nextLabel ≤ 4294967295) (hshows : Shows b left) (hnext : left.nextLabel = q.nextLabel) :
    Answers Shows (.ok (answer, b)) (answer, left) :=
  ⟨fun _ => ⟨b, rfl, hshows⟩, fun hnone => absurd hleft (Nat.not_le_of_lt (hnext ▸ hnone))⟩

/-- One that gives out a label answers as long as labels have numbers. -/
theorem of_ite {p : Prop} [Decidable p] (hp : p ↔ left.nextLabel ≤ 4294967295) (hshows : Shows b left) :
    Answers Shows (if p then .ok (answer, b) else .error .labelOverflow) (answer, left) :=
  ⟨fun hnow => ⟨b, if_pos (hp.mpr hnow), hshows⟩, fun hnone => if_neg fun h => Nat.not_le_of_lt hnone (hp.mp h)⟩

/-- What is done after an edit depends on its answer, and there is nothing to do without one. -/
theorem bind {Shown : δ → Sequence → Prop} {r : Except Error (α × β)} {x : α × Sequence} {y : γ × Sequence}
    {f : α × β → Except Error (γ × δ)} (h : Answers Shows r x) (hle : x.2.nextLabel ≤ y.2.nextLabel)
    (hf : ∀ c, Shows c x.2 → x.2.nextLabel ≤ 4294967295 → Answers Shown (f (x.1, c)) y) :
    Answers Shown (r >>= f) y := by
  by_cases hnow : x.2.nextLabel ≤ 4294967295
  · obtain ⟨c, hc, hshows⟩ := h.ok hnow
    rw [hc]
    exact hf c hshows hnow
  · have hnone := Nat.lt_of_not_le hnow
    rw [h.overflow hnone]
    exact ⟨fun hnow => absurd (Nat.le_trans hle hnow) (Nat.not_le_of_lt hnone), fun _ => rfl⟩

/-- An answer can be put in another way. -/
theorem map {Shown : δ → Sequence → Prop} {r : Except Error (α × β)} {x : α × Sequence} (h : Answers Shows r x)
    {f : α → γ} {g : β → δ} (hg : ∀ c, Shows c x.2 → Shown (g c) x.2) :
    Answers Shown (do let (answer, c) ← r; return (f answer, g c)) (f x.1, x.2) :=
  h.bind (Nat.le_refl _) fun c hshows hnow => of_ok hnow (hg c hshows) rfl

/-- What carries out each edit as on the sequence does so with a series of them. -/
theorem runAll {edit : β → Edit → Except Error (Edit.Answer × β)}
    (hedit : ∀ {b q e}, Shows b q → q.Numbered → q.Admits e → q.nextLabel ≤ 4294967295 →
      (q.perform e).2.issued ≤ 4294967296 → Answers Shows (edit b e) (q.perform e))
    (h : Shows b q) (hq : q.Numbered) (hes : q.AdmitsAll es) (hleft : q.nextLabel ≤ 4294967295)
    (hfit : (q.performAll es).2.issued ≤ 4294967296) : Answers Shows (Edit.runAll edit b es) (q.performAll es) := by
  induction es generalizing b q with
  | nil => exact of_ok hleft h rfl
  | cons e es ih =>
    have hnumbered := hq.perform hes.1
    have hstep := hedit h hq hes.1 hleft (Nat.le_trans (ids_performAll hnumbered hes.2).1 hfit)
    refine hstep.bind (nextLabel_performAll _ es) fun c hshows hnow => ?_
    exact (ih hshows hnumbered hes.2 hnow hfit).map fun _ hshown => hshown

end Answers

end Sequence

/-- The look-ups find what stands in a sequence of numbered instructions. -/
structure View.Reads (v : View) (items : List (Nat × Instr)) : Prop where
  pairs : v.pairs = items
  size : v.size = items.length
  isEmpty : v.isEmpty = items.isEmpty
  first : v.first = items.head?.map Prod.fst
  last : v.last = items.getLast?.map Prod.fst
  get : ∀ id i, v.get id = some i ↔ (id, i) ∈ items
  contains : ∀ id, v.contains id = true ↔ id ∈ items.map Prod.fst
  label : ∀ name id, v.label name = some id ↔ (id, .label name) ∈ items
  /-- The neighbours of a number that is there. -/
  next : ∀ pre x post, items = pre ++ x :: post → v.next x.1 = post.head?.map Prod.fst
  prev : ∀ pre x post, items = pre ++ x :: post → v.prev x.1 = pre.getLast?.map Prod.fst
  nextReal : ∀ pre x post, items = pre ++ x :: post → v.nextReal x.1 = (post.find? (·.2.isReal)).map Prod.fst
  prevReal : ∀ pre x post, items = pre ++ x :: post →
    v.prevReal x.1 = (pre.reverse.find? (·.2.isReal)).map Prod.fst
  realFrom : ∀ pre x post, items = pre ++ x :: post →
    v.realFrom x.1 = ((x :: post).find? (·.2.isReal)).map Prod.fst
  /-- A number that is not there has none. -/
  absent : ∀ id ∉ items.map Prod.fst, v.next id = none ∧ v.prev id = none ∧ v.nextReal id = none ∧
    v.prevReal id = none ∧ v.realFrom id = none

end Untangle
