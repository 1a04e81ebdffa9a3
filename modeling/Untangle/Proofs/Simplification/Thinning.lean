import Untangle.Proofs.Code.WellFormed
import Untangle.Simplification.Sweep

/-!
# Thinning out code

What the sweeps over a body have in common: they take out instructions that fall through, they put
another instruction in the place of one, and they leave labels alone. `Thinned` says so for a stretch
of code; it can be shown for the few nodes that a rule touches and then holds of the whole run.

Thinned code binds the same labels, names no new targets and stays closed. This is all that is needed
for a body to stay well-formed, and it carries over from one change to the next.
-/

namespace Untangle

open List Instruction

variable {ms ns : List Node} {n : Node} {ks : List Node} {b : Body}

/-- The instruction may be put in the place of another one without a look at what is around it. -/
structure Instruction.StandsFor (i j : Instr) : Prop where
  real : i.isReal = true
  stops : j.fallsThrough = false → i.fallsThrough = false
  targets : ∀ t ∈ i.targets, t ∈ j.targets
  table : i.TableFits
  opcode : i.HasOpcode

/-- A new instruction that may be put in front of any other. -/
structure Node.Insertable (n : Node) : Prop where
  live : n.live = true
  real : n.isReal = true
  falls : n.instr.fallsThrough = true
  targets : n.instr.targets = []
  table : n.instr.TableFits
  opcode : n.instr.HasOpcode

/-- The second run comes from the first by taking out instructions that fall through, and by putting
others in the place of instructions, with new ones that satisfy `new` in front of them. -/
inductive Thinned (new : Node → Prop) : List Node → List Node → Prop where
  | nil : Thinned new [] []
  | keep {ns ms : List Node} (n : Node) : Thinned new ns ms → Thinned new (n :: ns) (n :: ms)
  | drop {ns ms : List Node} {n : Node} : n.instr.label? = none → n.instr.fallsThrough = true →
      Thinned new ns ms → Thinned new (n :: ns) ms
  | swap {ns ms setup : List Node} {n : Node} {i : Instr} : n.isReal = true → i.StandsFor n.instr →
      (∀ m ∈ setup, new m ∧ m.Insertable) → Thinned new ns ms →
      Thinned new (n :: ns) (setup ++ { n with content := some i } :: ms)

/-- No new instruction. -/
abbrev NoneNew : Node → Prop := fun _ => False

namespace Thinned

variable {new : Node → Prop} {ns ms ns' ms' : List Node}

theorem refl (ns : List Node) : Thinned new ns ns := by
  induction ns with
  | nil => exact nil
  | cons n ns ih => exact keep n ih

theorem append (h : Thinned new ns ms) (h' : Thinned new ns' ms') : Thinned new (ns ++ ns') (ms ++ ms') := by
  induction h with
  | nil => exact h'
  | keep n _ ih => exact keep n ih
  | drop hl hf _ ih => exact drop hl hf ih
  | swap hr hi hs _ ih =>
    rw [append_assoc]
    exact swap hr hi hs ih

/-- One instruction is taken out. -/
theorem dropped (hl : n.instr.label? = none) (hf : n.instr.fallsThrough = true) :
    Thinned new [n] [] := drop hl hf nil

/-- One instruction gives way to another. -/
theorem swapped {i : Instr} (hr : n.isReal = true) (hi : i.StandsFor n.instr) :
    Thinned new [n] [{ n with content := some i }] := by
  have h : Thinned new [n] ([] ++ [{ n with content := some i }]) := swap hr hi (by simp) nil
  exact h

theorem labels (h : Thinned new ns ms) : labelsOf ms = labelsOf ns := by
  induction h with
  | nil => rfl
  | keep n _ ih => rw [labelsOf_cons, labelsOf_cons, ih]
  | drop hl _ _ ih => rw [labelsOf_cons, hl, ih]; rfl
  | @swap ns ms setup n i hr hi hs _ ih =>
    have hsetup : labelsOf setup = [] := by
      rw [labelsOf, filterMap_eq_nil_iff]
      exact fun m hm => label?_of_isReal (hs m hm).2.real
    rw [labelsOf_append, labelsOf_cons, labelsOf_cons, ih, hsetup, Node.instr_some,
      label?_of_isReal hi.real, label?_of_isReal hr]
    rfl

theorem targets (h : Thinned new ns ms) : ∀ t ∈ targetsOf ms, t ∈ targetsOf ns := by
  induction h with
  | nil => exact fun t ht => ht
  | keep n _ ih =>
    intro t ht
    rw [targetsOf_cons, mem_append] at ht ⊢
    exact ht.imp_right (ih t)
  | drop _ _ _ ih =>
    intro t ht
    rw [targetsOf_cons, mem_append]
    exact .inr (ih t ht)
  | @swap ns ms setup n i _ hi hs _ ih =>
    have hsetup : targetsOf setup = [] := by
      rw [targetsOf, flatMap_eq_nil_iff]
      exact fun m hm => (hs m hm).2.targets
    intro t ht
    rw [targetsOf_append, hsetup, nil_append, targetsOf_cons, mem_append] at ht
    rw [targetsOf_cons, mem_append]
    exact ht.imp (hi.targets t) (ih t)

/-- What holds of every instruction, of every new one and of every substitute, holds after thinning. -/
theorem forall_mem {P : Node → Prop} (h : Thinned new ns ms) (hnew : ∀ m : Node, m.Insertable → P m)
    (hsub : ∀ (n : Node) (i : Instr), i.StandsFor n.instr → P { n with content := some i })
    (hns : ∀ n ∈ ns, P n) : ∀ n ∈ ms, P n := by
  induction h with
  | nil => exact hns
  | keep n _ ih =>
    rw [forall_mem_cons] at hns ⊢
    exact ⟨hns.1, ih hns.2⟩
  | drop _ _ _ ih =>
    rw [forall_mem_cons] at hns
    exact ih hns.2
  | swap _ hi hs _ ih =>
    rw [forall_mem_cons] at hns
    rw [forall_mem_append, forall_mem_cons]
    exact ⟨fun m hm => hnew m (hs m hm).2, hsub _ _ hi, ih hns.2⟩

/-- The numbers of the nodes that are left stand in the old order. -/
theorem ids_sublist (h : Thinned NoneNew ns ms) : (ms.map Node.id).Sublist (ns.map Node.id) := by
  induction h with
  | nil => exact .slnil
  | keep n _ ih => exact ih.cons_cons _
  | drop _ _ _ ih => exact ih.cons _
  | @swap ns ms setup n i _ _ hs _ ih =>
    cases setup with
    | nil => exact ih.cons_cons _
    | cons m setup => exact absurd (hs m (by simp)).1 id

/-- A run without instructions stays one. -/
theorem not_real (h : Thinned new ns ms) (hns : ∀ n ∈ ns, n.isReal = false) : ∀ n ∈ ms, n.isReal = false := by
  induction h with
  | nil => exact hns
  | keep n _ ih =>
    rw [forall_mem_cons] at hns ⊢
    exact ⟨hns.1, ih hns.2⟩
  | drop _ _ _ ih => exact ih (forall_mem_cons.mp hns).2
  | swap hr => simp [(forall_mem_cons.mp hns).1] at hr

/-- The node that ends a run is kept, or something that ends it as well takes its place. -/
theorem cut {front tail : List Node} {last : Node} (h : Thinned new (front ++ last :: tail) ms)
    (hr : last.isReal = true) (hf : last.instr.fallsThrough = false) :
    ∃ front' last' tail', ms = front' ++ last' :: tail' ∧ last'.isReal = true ∧
      last'.instr.fallsThrough = false ∧ labelsOf front' = labelsOf front ∧ Thinned new tail tail' := by
  induction front generalizing ms with
  | nil =>
    cases h with
    | keep _ h => exact ⟨[], last, _, rfl, hr, hf, rfl, h⟩
    | drop _ hfall => rw [hf] at hfall; cases hfall
    | @swap _ _ setup _ i _ hi hs h =>
      refine ⟨setup, _, _, rfl, hi.real, hi.stops hf, ?_, h⟩
      rw [labelsOf, filterMap_eq_nil_iff.mpr, labelsOf_nil]
      exact fun m hm => label?_of_isReal (hs m hm).2.real
  | cons n front ih =>
    cases h with
    | keep _ h =>
      obtain ⟨front', last', tail', rfl, hr', hf', hl, ht⟩ := ih h
      exact ⟨n :: front', last', tail', rfl, hr', hf', by rw [labelsOf_cons, labelsOf_cons, hl], ht⟩
    | drop hlabel _ h =>
      obtain ⟨front', last', tail', rfl, hr', hf', hl, ht⟩ := ih h
      exact ⟨front', last', tail', rfl, hr', hf', by rw [labelsOf_cons, hlabel, hl]; rfl, ht⟩
    | @swap _ _ setup _ i hreal hi hs h =>
      obtain ⟨front', last', tail', rfl, hr', hf', hl, ht⟩ := ih h
      refine ⟨setup ++ { n with content := some i } :: front', last', tail', by simp, hr', hf', ?_, ht⟩
      rw [labelsOf_append, labelsOf_cons, labelsOf_cons, hl, Node.instr_some,
        label?_of_isReal hi.real, label?_of_isReal hreal]
      rw [labelsOf, filterMap_eq_nil_iff.mpr]
      · rfl
      · exact fun m hm => label?_of_isReal (hs m hm).2.real

theorem closed (h : Thinned new ns ms) (hc : Closed ns) : Closed ms := by
  rcases hc with hc | ⟨_, _, _, rfl, hr, hf, htail, ht⟩
  · exact .inl (h.not_real hc)
  · have htargets := h.targets
    obtain ⟨front', last', tail', rfl, hr', hf', hl, htail'⟩ := h.cut hr hf
    refine .inr ⟨front', last', tail', rfl, hr', hf', htail'.not_real htail, fun t h => ?_⟩
    rw [hl]
    exact ht t (htargets t h)

end Thinned

/-! ### Whole runs -/

/-- What thinning a run of nodes any number of times keeps. -/
structure Simplifies (ns ms : List Node) : Prop where
  labels : labelsOf ms = labelsOf ns
  targets : ∀ t ∈ targetsOf ms, t ∈ targetsOf ns
  closed : Closed ns → Closed ms
  live : (∀ n ∈ ns, n.live = true) → ∀ n ∈ ms, n.live = true
  tables : (∀ n ∈ ns, n.instr.TableFits) → ∀ n ∈ ms, n.instr.TableFits
  maths : (∀ n ∈ ns, n.instr.HasOpcode) → ∀ n ∈ ms, n.instr.HasOpcode

theorem Simplifies.refl (ns : List Node) : Simplifies ns ns :=
  ⟨rfl, fun _ h => h, id, id, id, id⟩

theorem Simplifies.trans (h : Simplifies ns ms) (h' : Simplifies ms ks) : Simplifies ns ks where
  labels := h'.labels.trans h.labels
  targets t ht := h.targets t (h'.targets t ht)
  closed := h'.closed ∘ h.closed
  live := h'.live ∘ h.live
  tables := h'.tables ∘ h.tables
  maths := h'.maths ∘ h.maths

theorem Thinned.simplifies (h : Thinned new ns ms) : Simplifies ns ms where
  labels := h.labels
  targets := h.targets
  closed := h.closed
  live := h.forall_mem (fun _ hm => hm.live) fun _ _ _ => rfl
  tables := h.forall_mem (fun _ hm => hm.table) fun _ _ hi => hi.table
  maths := h.forall_mem (fun _ hm => hm.opcode) fun _ _ hi => hi.opcode

/-- A well-formed body stays so when its nodes are simplified. -/
theorem Body.WellFormed.simplified {b' : Body} (h : b.WellFormed) (hm : Simplifies b.nodes ms)
    (hs : b'.code.strands = Listing.single ms) (hids : (ms.map Node.id).Nodup) (hid : ∀ n ∈ ms, n.id < b'.code.nextId)
    (hlabel : b'.code.nextLabel = b.code.nextLabel) (hranges : b'.ranges = b.ranges) (hlocals : b'.locals = b.locals) :
    b'.WellFormed := by
  apply wellFormed_of_nodes hs (hm.live fun _ => h.live) hids hid
  · rw [hm.labels, hlabel]
    exact h.sound.labels_lt
  · rw [hm.labels]
    exact h.bound_once
  · exact hm.closed h.closed
  · rw [hm.labels, hranges]
    exact fun _ => h.range_bound
  · rw [hm.labels, hlocals]
    exact fun _ => h.local_bound
  · exact hm.tables h.tables
  · exact hm.maths h.maths

/-- The second run simplifies the first and has no nodes but those of it, in their order. -/
structure Trims (ns ms : List Node) : Prop extends Simplifies ns ms where
  ids : (ms.map Node.id).Sublist (ns.map Node.id)

theorem Trims.refl (ns : List Node) : Trims ns ns := ⟨.refl ns, .refl _⟩

theorem Trims.trans (h : Trims ns ms) (h' : Trims ms ks) : Trims ns ks :=
  ⟨h.toSimplifies.trans h'.toSimplifies, h'.ids.trans h.ids⟩

theorem Thinned.trims (h : Thinned NoneNew ns ms) : Trims ns ms :=
  ⟨h.simplifies, h.ids_sublist⟩

/-- A well-formed body stays so when trimmed nodes are put in the place of the old ones. -/
theorem Body.WellFormed.withNodes (h : b.WellFormed) (hm : Trims b.nodes ms) :
    { b with code := { b.code.withNodes ms with modified := true } }.WellFormed := by
  have hids := hm.ids
  refine h.simplified hm.toSimplifies (Listing.withNodes_strands h.intact fun hnil => ?_)
    (hids.nodup h.sound.ids_nodup) (fun n hn => ?_) rfl rfl rfl
  · have hlen := hids.length_le
    rw [show b.nodes = [] from hnil] at hlen
    simpa using hlen
  · obtain ⟨m, hmem, he⟩ := mem_map.mp (hids.subset (mem_map_of_mem hn))
    rw [← he]
    exact h.sound.ids_lt m hmem

end Untangle
