import Untangle.Code.Shape
import Untangle.Proofs.Code.Listing

/-!
# Well-formed bodies

What every body satisfies that was decoded from code, and what every simplification keeps: labels are
bound once, whatever is referred to is bound, control neither runs off the end of the code nor jumps
behind its last instruction, and every instruction has an encoding.

The two conditions on control are also stated in one (`Closed`): the run of nodes is cut at its last
instruction, that instruction does not fall through, and the targets of all jumps are bound before it.
Edits are checked against that form.
-/

namespace Untangle

open List Listing Instruction

variable {ns post pre front tail : List Node} {last x a n : Node} {l : Label} {b : Body} {i : Instr} {τ σ : Type}
  {f : Label → Label}

namespace Instruction

/-- A switch by range has one target for each key of its range. -/
def TableFits {τ : Type} : Instruction τ → Prop
  | tableSwitch low high _ targets => (targets.length : Int) = high.toInt - low.toInt + 1
  | _ => True

/-- An arithmetic instruction is one that the machine has. -/
def HasOpcode {τ : Type} : Instruction τ → Prop
  | math kind op => (mathOpcode? kind op).isSome = true
  | _ => True

instance {τ : Type} (i : Instruction τ) : Decidable i.TableFits := by
  cases i with
  | tableSwitch low high _ targets =>
    exact inferInstanceAs (Decidable ((targets.length : Int) = high.toInt - low.toInt + 1))
  | _ => exact inferInstanceAs (Decidable True)

instance {τ : Type} (i : Instruction τ) : Decidable i.HasOpcode := by
  cases i with
  | math kind op => exact inferInstanceAs (Decidable ((mathOpcode? kind op).isSome = true))
  | _ => exact inferInstanceAs (Decidable True)

@[simp] theorem tableFits_mapTargets (f : τ → σ) (i : Instruction τ) : (i.mapTargets f).TableFits ↔ i.TableFits := by
  cases i <;> simp [mapTargets, TableFits]

@[simp] theorem hasOpcode_mapTargets (f : τ → σ) (i : Instruction τ) : (i.mapTargets f).HasOpcode ↔ i.HasOpcode := by
  cases i <;> simp [mapTargets, HasOpcode]

end Instruction

/-- Some instruction stands behind the label. -/
def Lands (ns : List Node) (l : Label) : Prop :=
  ∃ pre m post, ns = pre ++ m :: post ∧ m.instr = .label l ∧ ∃ n ∈ post, n.isReal = true

theorem lands_cons : Lands (n :: ns) l ↔ (n.instr = .label l ∧ ∃ m ∈ ns, m.isReal = true) ∨ Lands ns l := by
  constructor
  · rintro ⟨_ | ⟨_, pre⟩, m, post, ⟨⟩, hm, hr⟩
    · exact .inl ⟨hm, hr⟩
    · exact .inr ⟨pre, m, post, rfl, hm, hr⟩
  · rintro (⟨hn, hr⟩ | ⟨pre, m, post, rfl, hm, hr⟩)
    · exact ⟨[], n, ns, rfl, hn, hr⟩
    · exact ⟨n :: pre, m, post, rfl, hm, hr⟩

instance decidableLands (l : Label) : (ns : List Node) → Decidable (Lands ns l)
  | [] => isFalse (by simp [Lands])
  | _ :: ns =>
    have := decidableLands l ns
    decidable_of_iff _ lands_cons.symm

namespace Body

/-- Labels, references, control and switch tables of a body are as they have to be. -/
structure Linked (b : Body) : Prop where
  /-- Every label is bound by at most one node. -/
  bound_once : (labelsOf b.nodes).Nodup
  /-- Every label that a jump, a switch, a range or a variable names is bound. -/
  bound : ∀ l ∈ b.referenced, l ∈ labelsOf b.nodes
  /-- The last instruction does not fall through. -/
  ends : ∀ n, (b.nodes.filter Node.isReal).getLast? = some n → n.instr.fallsThrough = false
  /-- Behind every label that a jump or a switch names there is an instruction. -/
  lands : ∀ t ∈ targetsOf b.nodes, Lands b.nodes t
  tables : ∀ n ∈ b.nodes, n.instr.TableFits

instance (b : Body) : Decidable b.Linked :=
  decidable_of_iff ((labelsOf b.nodes).Nodup ∧ (∀ l ∈ b.referenced, l ∈ labelsOf b.nodes) ∧
      (∀ n ∈ (b.nodes.filter Node.isReal).getLast?, n.instr.fallsThrough = false) ∧
      (∀ t ∈ targetsOf b.nodes, Lands b.nodes t) ∧ ∀ n ∈ b.nodes, n.instr.TableFits)
    ⟨fun ⟨honce, hbound, hends, hlands, htables⟩ => ⟨honce, hbound, hends, hlands, htables⟩,
      fun h => ⟨h.bound_once, h.bound, h.ends, h.lands, h.tables⟩⟩

/-- A linked body whose listing is sound and whose arithmetic the machine has. -/
structure WellFormed (b : Body) : Prop extends b.Linked where
  sound : b.code.Sound
  maths : ∀ n ∈ b.nodes, n.instr.HasOpcode

end Body

/-! ### Control stays inside -/

/-- The last instruction does not fall through, and every jump goes to a label before it. -/
def Closed (ns : List Node) : Prop :=
  (∀ n ∈ ns, n.isReal = false) ∨
    ∃ front last tail, ns = front ++ last :: tail ∧ last.isReal = true ∧
      last.instr.fallsThrough = false ∧ (∀ n ∈ tail, n.isReal = false) ∧
      ∀ t ∈ targetsOf ns, t ∈ labelsOf front

/-- A run of nodes, some of which pass a test, is cut at the last one that does. -/
theorem exists_last {test : Node → Bool} (h : ∃ n ∈ ns, test n = true) :
    ∃ front last tail, ns = front ++ last :: tail ∧ test last = true ∧ ∀ n ∈ tail, test n = false := by
  induction ns with
  | nil => simp at h
  | cons m ms ih =>
    by_cases hr : ∃ n ∈ ms, test n = true
    · obtain ⟨front, last, tail, rfl, hlast, htail⟩ := ih hr
      exact ⟨m :: front, last, tail, rfl, hlast, htail⟩
    · have hm : test m = true := by
        obtain ⟨n, hn, hpass⟩ := h
        rcases mem_cons.mp hn with rfl | hn
        · exact hpass
        · exact absurd ⟨n, hn, hpass⟩ hr
      exact ⟨[], m, ms, rfl, hm, fun n hn => by
        by_contra hc
        exact hr ⟨n, hn, by simpa using hc⟩⟩

/-- Nothing behind the last instruction is an instruction. -/
theorem getLast?_filter_real (hlast : last.isReal = true) (htail : ∀ n ∈ tail, n.isReal = false) :
    ((front ++ last :: tail).filter Node.isReal).getLast? = some last := by
  have ht : tail.filter Node.isReal = [] := by
    rw [filter_eq_nil_iff]
    intro n hn
    simp [htail n hn]
  rw [filter_append, filter_cons_of_pos hlast, ht]
  simp

theorem targetsOf_eq_nil (h : ∀ n ∈ ns, n.isReal = false) : targetsOf ns = [] := by
  rw [targetsOf, flatMap_eq_nil_iff]
  exact fun n hn => targets_of_not_isReal (h n hn)

/-- A node that stands before an instruction of a cut run stands before the cut, or is the cut. -/
theorem mem_front_of_real_after {m : Node} (htail : ∀ n ∈ tail, n.isReal = false)
    (he : front ++ last :: tail = pre ++ m :: post) (hr : ∃ n ∈ post, n.isReal = true) : m ∈ front := by
  obtain ⟨n, hn, hreal⟩ := hr
  rcases split_cons he with ⟨mid, rfl, -⟩ | ⟨-, -, rfl⟩ | ⟨mid, rfl, -⟩
  · simp
  · simp [htail n hn] at hreal
  · simp [htail n (by simp [hn])] at hreal

/-- The labels before the last instruction are those that an instruction stands behind. -/
theorem lands_iff (hlast : last.isReal = true) (htail : ∀ n ∈ tail, n.isReal = false) :
    Lands (front ++ last :: tail) l ↔ l ∈ labelsOf front := by
  constructor
  · rintro ⟨pre, m, post, he, hm, hpost⟩
    exact mem_labelsOf.mpr ⟨m, mem_front_of_real_after htail he hpost, hm⟩
  · intro hl
    obtain ⟨pre, m, post, rfl, hm⟩ := exists_of_mem_labelsOf hl
    exact ⟨pre, m, post ++ last :: tail, by simp, hm, last, by simp, hlast⟩

/-- Behind a label there is an instruction: the two stand in this order. -/
theorem lands_iff_sublist : Lands ns l ↔ ∃ a m : Node, a.instr = .label l ∧ m.isReal = true ∧ [a, m].Sublist ns := by
  constructor
  · rintro ⟨pre, a, post, rfl, ha, m, hm, hmr⟩
    exact ⟨a, m, ha, hmr, sublist_append_of_sublist_right ((singleton_sublist.mpr hm).cons_cons a)⟩
  · rintro ⟨a, m, ha, hmr, hs⟩
    obtain ⟨_, back, rfl, haf, hs'⟩ := cons_sublist_iff.mp hs
    obtain ⟨pre, post, rfl⟩ := append_of_mem haf
    refine ⟨pre, a, post ++ back, by simp, ha, m, ?_, hmr⟩
    exact mem_append_right _ (singleton_sublist.mp hs')

theorem Lands.mono {ms : List Node} (h : Lands ns l) (hs : ns.Sublist ms) : Lands ms l := by
  obtain ⟨a, m, ha, hmr, hsub⟩ := lands_iff_sublist.mp h
  exact lands_iff_sublist.mpr ⟨a, m, ha, hmr, hsub.trans hs⟩

theorem Lands.mem_labelsOf (h : Lands ns l) : l ∈ labelsOf ns := by
  obtain ⟨_, m, _, rfl, hm, -⟩ := h
  exact mem_labelsOf.mpr ⟨m, by simp, hm⟩

/-- The two conditions on control in one. -/
theorem closed_of_ends (hends : ∀ n, (ns.filter Node.isReal).getLast? = some n → n.instr.fallsThrough = false)
    (hlands : ∀ t ∈ targetsOf ns, Lands ns t) : Closed ns := by
  by_cases hr : ∃ n ∈ ns, n.isReal = true
  · obtain ⟨front, last, tail, rfl, hlast, htail⟩ := exists_last hr
    refine .inr ⟨front, last, tail, rfl, hlast, ?_, htail, ?_⟩
    · exact hends last (getLast?_filter_real hlast htail)
    · exact fun t ht => (lands_iff hlast htail).mp (hlands t ht)
  · exact .inl fun n hn => by
      by_contra hc
      exact hr ⟨n, hn, by simpa using hc⟩

theorem Body.Linked.closed (h : b.Linked) : Closed b.nodes := closed_of_ends h.ends h.lands

/-- The last instruction of closed code does not fall through. -/
theorem Closed.ends (h : Closed ns) (n : Node) (hn : (ns.filter Node.isReal).getLast? = some n) :
    n.instr.fallsThrough = false := by
  rcases h with h | ⟨_, _, _, rfl, hlast, hfall, htail, -⟩
  · have : ns.filter Node.isReal = [] := by
      rw [filter_eq_nil_iff]
      intro m hm
      simp [h m hm]
    rw [this] at hn
    cases hn
  · rw [getLast?_filter_real hlast htail] at hn
    cases hn
    exact hfall

/-- Behind the target of a jump of closed code there is an instruction. -/
theorem Closed.lands (h : Closed ns) (t : Label) (ht : t ∈ targetsOf ns) : Lands ns t := by
  rcases h with h | ⟨_, _, _, rfl, hlast, -, htail, htargets⟩
  · rw [targetsOf_eq_nil h] at ht
    cases ht
  · exact (lands_iff hlast htail).mpr (htargets t ht)

theorem Lands.map_retarget (h : Lands ns l) (f : Label → Label) : Lands (ns.map (Node.retarget f)) l := by
  obtain ⟨pre, a, post, rfl, ha, m, hm, hr⟩ := h
  refine ⟨pre.map (Node.retarget f), a.retarget f, post.map (Node.retarget f), by simp, ?_, m.retarget f,
    mem_map_of_mem hm, by simpa using hr⟩
  rw [Node.instr_retarget, ha]
  rfl

/-- Sending jumps elsewhere keeps code closed if there is an instruction behind where they go. -/
theorem Closed.retarget (h : Closed ns) (hf : ∀ t ∈ targetsOf ns, Lands ns (f t)) :
    Closed (ns.map (Node.retarget f)) := by
  rcases h with h | ⟨front, last, tail, rfl, hlast, hfall, htail, -⟩
  · refine .inl fun n hn => ?_
    obtain ⟨m, hm, rfl⟩ := mem_map.mp hn
    rw [Node.isReal_retarget]
    exact h m hm
  · refine .inr ⟨front.map (Node.retarget f), last.retarget f, tail.map (Node.retarget f), by simp,
      by simpa using hlast, by simpa using hfall, ?_, ?_⟩
    · intro n hn
      obtain ⟨m, hm, rfl⟩ := mem_map.mp hn
      rw [Node.isReal_retarget]
      exact htail m hm
    · intro t ht
      rw [targetsOf_map_retarget] at ht
      obtain ⟨t', ht', rfl⟩ := mem_map.mp ht
      rw [labelsOf_map_retarget]
      exact (lands_iff hlast htail).mp (hf t' ht')

/-- The last instruction after one more that does not fall through. -/
theorem ends_of_insert (hx : x.isReal = true → x.instr.fallsThrough = false)
    (hpost : ∀ n, (post.filter Node.isReal).getLast? = some n → n.instr.fallsThrough = false)
    (hpre : ∀ n, x.isReal = false → post.filter Node.isReal = [] → (pre.filter Node.isReal).getLast? = some n →
      n.instr.fallsThrough = false)
    (hlast : ((pre ++ x :: post).filter Node.isReal).getLast? = some last) : last.instr.fallsThrough = false := by
  rw [filter_append] at hlast
  by_cases hnil : post.filter Node.isReal = []
  · by_cases hr : x.isReal = true
    · rw [filter_cons_of_pos hr, hnil, getLast?_append] at hlast
      cases hlast
      exact hx hr
    · rw [filter_cons_of_neg hr, hnil, append_nil] at hlast
      exact hpre last (Bool.eq_false_iff.mpr hr) hnil hlast
  · obtain ⟨n, hn⟩ := Option.isSome_iff_exists.mp (getLast?_isSome.mpr hnil)
    have hcons : ((x :: post).filter Node.isReal).getLast? = some n := by
      by_cases hr : x.isReal = true
      · rw [filter_cons_of_pos hr, getLast?_cons_of_ne_nil hnil, hn]
      · rw [filter_cons_of_neg hr, hn]
    rw [getLast?_append, hcons] at hlast
    cases hlast
    exact hpost _ hn

theorem mem_targetsOf_insert {t : Label} :
    t ∈ targetsOf (pre ++ x :: post) ↔ t ∈ x.instr.targets ∨ t ∈ targetsOf (pre ++ post) := by
  simp only [targetsOf_append, targetsOf_cons, mem_append]
  exact or_left_comm

/-- One more node keeps code closed, if it does not fall through when it is an instruction. -/
theorem Closed.insert (h : Closed (pre ++ post)) (hx : x.isReal = true → x.instr.fallsThrough = false)
    (ht : ∀ t ∈ x.instr.targets, Lands (pre ++ post) t) : Closed (pre ++ x :: post) := by
  have hsub : (pre ++ post).Sublist (pre ++ x :: post) :=
    (Sublist.refl pre).append (sublist_cons_self x post)
  refine closed_of_ends (fun last => ends_of_insert hx (fun n hn => h.ends n ?_) fun n _ hnil hn => h.ends n ?_) ?_
  · rw [filter_append, getLast?_append, hn, Option.some_or]
  · rw [filter_append, hnil, append_nil, hn]
  · intro t hmem
    refine Lands.mono ?_ hsub
    rcases mem_targetsOf_insert.mp hmem with hmem | hmem
    · exact ht t hmem
    · exact h.lands t hmem

/-- Another instruction in the place of one keeps code closed, if it does not fall through. -/
theorem Closed.swap (h : Closed (pre ++ n :: post)) (hn : n.isReal = true) (hx : x.isReal = true)
    (hf : x.instr.fallsThrough = false) (ht : ∀ t ∈ x.instr.targets, Lands (pre ++ n :: post) t) :
    Closed (pre ++ x :: post) := by
  have hlands : ∀ t, Lands (pre ++ n :: post) t → Lands (pre ++ x :: post) t := by
    rintro t ⟨front, a, back, he, ha, m, hm, hmr⟩
    have hna : n ≠ a := by
      rintro rfl
      simp [Node.isReal, ha, isReal] at hn
    rcases split_cons he with ⟨mid, rfl, rfl⟩ | ⟨-, he, -⟩ | ⟨mid, rfl, rfl⟩
    · exact ⟨front, a, mid ++ x :: post, by simp, ha, x, by simp, hx⟩
    · exact absurd he hna
    · -- the label stands behind what is replaced
      exact ⟨pre ++ x :: mid, a, back, by simp, ha, m, hm, hmr⟩
  refine closed_of_ends (fun last => ends_of_insert (fun _ => hf) (fun m hm => h.ends m ?_) fun m hx' => ?_) ?_
  · rw [filter_append, filter_cons_of_pos hn, getLast?_append_cons,
      getLast?_cons_of_ne_nil (by rintro hnil; rw [hnil] at hm; cases hm), hm]
  · rw [hx] at hx'
    cases hx'
  · intro t hmem
    refine hlands t ?_
    rcases mem_targetsOf_insert.mp hmem with hmem | hmem
    · exact ht t hmem
    · exact h.lands t (mem_targetsOf_insert.mpr (.inr hmem))

/-! ### Putting a body together -/

theorem Body.mem_referenced :
    l ∈ b.referenced ↔ l ∈ targetsOf b.nodes ∨ (∃ r ∈ b.ranges, l = r.start ∨ l = r.stop ∨ l = r.handler) ∨
      ∃ v ∈ b.locals, l = v.start ∨ l = v.stop := by
  simp [referenced, targetsOf]

/-- A body is well-formed if its nodes are, one by one and as a whole. -/
theorem Body.wellFormed_of_nodes (hs : b.code.strands = Listing.single ns) (hlive : ∀ n ∈ ns, n.live = true)
    (hids : (ns.map Node.id).Nodup) (hid : ∀ n ∈ ns, n.id < b.code.nextId)
    (hlabel : ∀ l ∈ labelsOf ns, l < b.code.nextLabel) (honce : (labelsOf ns).Nodup) (hclosed : Closed ns)
    (hranges : ∀ r ∈ b.ranges, r.start ∈ labelsOf ns ∧ r.stop ∈ labelsOf ns ∧ r.handler ∈ labelsOf ns)
    (hlocals : ∀ v ∈ b.locals, v.start ∈ labelsOf ns ∧ v.stop ∈ labelsOf ns)
    (htables : ∀ n ∈ ns, n.instr.TableFits) (hmaths : ∀ n ∈ ns, n.instr.HasOpcode) : b.WellFormed := by
  have hns : b.nodes = ns := nodes_of_strands hs
  refine { bound_once := ?_, bound := ?_, ends := ?_, lands := ?_, tables := ?_, sound := ?_, maths := ?_ }
  · rwa [hns]
  · intro l hl
    rw [hns]
    rcases mem_referenced.mp hl with ht | ⟨r, hr, rfl | rfl | rfl⟩ | ⟨v, hv, rfl | rfl⟩
    · rw [hns] at ht
      exact (hclosed.lands l ht).mem_labelsOf
    · exact (hranges r hr).1
    · exact (hranges r hr).2.1
    · exact (hranges r hr).2.2
    · exact (hlocals v hv).1
    · exact (hlocals v hv).2
  · rw [hns]
    exact hclosed.ends
  · rw [hns]
    exact hclosed.lands
  · rwa [hns]
  · exact sound_of_strands hs hlive hids hid hlabel
  · rwa [hns]

/-! ### Looking up labels -/

/-- A body whose listing is one run of nodes that were not removed, have numbers of their own and bind no label
twice. What is referred to need not be there. -/
structure Body.Orderly (b : Body) : Prop where
  intact : b.code.Intact
  distinct : Distinct b.nodes

namespace Body.Orderly

variable (h : b.Orderly)

include h

theorem live (hn : n ∈ b.nodes) : n.live = true := h.intact.live hn

/-- A label has one place. -/
theorem labelPlace?_eq (hns : b.nodes = pre ++ a :: post) (ha : a.instr = .label l) :
    b.code.labelPlace? l = some ⟨pre.reverse, a, post⟩ := by
  refine (labelPlace?_eq_some h.intact).mpr ⟨pre, hns, rfl, ?_, fun hl => ?_⟩
  · rw [← ha]
    exact Node.content_of_live (h.live (by rw [hns]; simp))
  · have honce := h.distinct.labels
    rw [hns, labelsOf_append, labelsOf_cons, ha] at honce
    exact disjoint_of_nodup_append honce hl (by simp [label?])

/-- A label that is not bound has no place. -/
theorem labelPlace?_eq_none (hl : l ∉ labelsOf b.nodes) : b.code.labelPlace? l = none := by
  rw [Option.eq_none_iff_forall_ne_some]
  intro p hp
  obtain ⟨_, hns, -, hc, -⟩ := (labelPlace?_eq_some h.intact).mp hp
  refine hl (mem_labelsOf.mpr ⟨p.node, ?_, Node.instr_of_content hc⟩)
  rw [nodes, hns]
  exact mem_append_right _ (mem_cons_self ..)

theorem fromLabel_eq (hns : b.nodes = pre ++ a :: post) (ha : a.instr = .label l) : b.code.fromLabel l = a :: post := by
  rw [fromLabel, h.labelPlace?_eq hns ha]

theorem fromLabel_eq_nil (hl : l ∉ labelsOf b.nodes) : b.code.fromLabel l = [] := by
  rw [fromLabel, h.labelPlace?_eq_none hl]

theorem realAt?_eq (hns : b.nodes = pre ++ a :: post) (ha : a.instr = .label l) :
    b.code.realAt? l = post.find? Node.isReal := by
  have hr : a.isReal = false := by simp [Node.isReal, ha, isReal]
  rw [realAt?, h.fromLabel_eq hns ha, find?_cons_of_neg (by simp [hr])]

theorem labelNode?_eq (ha : a ∈ b.nodes) (hl : a.instr = .label l) : b.code.labelNode? l = some a.id := by
  obtain ⟨_, _, hns⟩ := append_of_mem ha
  rw [labelNode?, h.labelPlace?_eq hns hl]
  rfl

theorem labelNode?_eq_none (hl : l ∉ labelsOf b.nodes) : b.code.labelNode? l = none := by
  rw [labelNode?, h.labelPlace?_eq_none hl]
  rfl

end Body.Orderly

/-! ### Sending jumps elsewhere -/

namespace Body

variable (b) (f : Label → Label) (handlers : Bool)

theorem code_redirect : (b.redirect f handlers).2.code = (b.code.redirect f).2 := by
  unfold redirect
  dsimp only
  split
  · split <;> rfl
  · rfl

theorem locals_redirect : (b.redirect f handlers).2.locals = b.locals := by
  unfold redirect
  dsimp only
  split
  · split <;> rfl
  · rfl

theorem count_redirect :
    (b.redirect f true).1 = (b.code.redirect f).1 + b.ranges.countP fun r => f r.handler != r.handler := by
  simp only [redirect, if_true]
  split
  · rename_i hzero
    exact hzero.symm
  · rfl

omit b in
/-- Nothing to rename leaves handlers as they are. -/
theorem map_handler_eq_self {ranges : List Range} (h : (ranges.countP fun r => f r.handler != r.handler) = 0) :
    (ranges.map fun r => { r with handler := f r.handler }) = ranges := by
  refine (map_congr_left fun r hr => ?_).trans (map_id' ranges)
  have heq : f r.handler = r.handler := by simpa using countP_eq_zero.mp h r hr
  rw [heq]

theorem ranges_redirect : (b.redirect f true).2.ranges = b.ranges.map fun r => { r with handler := f r.handler } := by
  simp only [redirect, if_true]
  split
  · rename_i hzero
    exact (map_handler_eq_self f (Nat.eq_zero_of_add_eq_zero_left hzero)).symm
  · rfl

end Body

namespace Body.WellFormed

variable (h : b.WellFormed)

include h

theorem intact : b.code.Intact := h.sound.intact

theorem strands : b.code.strands = Listing.single b.nodes := h.sound.intact.strands

theorem live (hn : n ∈ b.nodes) : n.live = true := h.sound.intact.live hn

theorem range_bound {r : Range} (hr : r ∈ b.ranges) :
    r.start ∈ labelsOf b.nodes ∧ r.stop ∈ labelsOf b.nodes ∧ r.handler ∈ labelsOf b.nodes :=
  ⟨h.bound _ (mem_referenced.mpr (.inr (.inl ⟨r, hr, .inl rfl⟩))),
    h.bound _ (mem_referenced.mpr (.inr (.inl ⟨r, hr, .inr (.inl rfl)⟩))),
    h.bound _ (mem_referenced.mpr (.inr (.inl ⟨r, hr, .inr (.inr rfl)⟩)))⟩

theorem local_bound {v : Variable} (hv : v ∈ b.locals) : v.start ∈ labelsOf b.nodes ∧ v.stop ∈ labelsOf b.nodes :=
  ⟨h.bound _ (mem_referenced.mpr (.inr (.inr ⟨v, hv, .inl rfl⟩))),
    h.bound _ (mem_referenced.mpr (.inr (.inr ⟨v, hv, .inr rfl⟩)))⟩

theorem ids_nodup : (b.nodes.map Node.id).Nodup := h.sound.ids_nodup

/-- No node stands twice in the run. -/
theorem nodup : b.nodes.Nodup := Nodup.of_map _ h.ids_nodup

section

variable (hns : b.nodes = pre ++ n :: post)

include hns

theorem eq_of_append_cons {pre' post' : List Node} (hns' : b.nodes = pre' ++ n :: post') : pre = pre' ∧ post = post' :=
  Distinct.split_node ⟨h.ids_nodup, h.bound_once⟩ hns hns'

theorem ids_ne_of_append :
    ∀ m ∈ pre, m.id ≠ n.id := id_not_mem_of_nodup (hns ▸ h.ids_nodup)

theorem livePlace?_eq : b.code.livePlace? n.id = some ⟨pre.reverse, n, post⟩ :=
  livePlace?_of_strands (hns ▸ h.strands) (h.live (by rw [hns]; simp)) (h.ids_ne_of_append hns)

end

theorem get?_eq (hn : n ∈ b.nodes) : b.code.get? n.id = some n.instr := by
  obtain ⟨_, _, hns⟩ := append_of_mem hn
  rw [get?, h.livePlace?_eq hns]
  exact Node.content_of_live (h.live hn)

theorem orderly : b.Orderly := ⟨h.intact, h.ids_nodup, h.bound_once⟩

theorem labelPlace?_eq (hns : b.nodes = pre ++ a :: post) (ha : a.instr = .label l) :
    b.code.labelPlace? l = some ⟨pre.reverse, a, post⟩ := h.orderly.labelPlace?_eq hns ha

theorem fromLabel_eq (hns : b.nodes = pre ++ a :: post) (ha : a.instr = .label l) :
    b.code.fromLabel l = a :: post := h.orderly.fromLabel_eq hns ha

theorem fromLabel_eq_nil (hl : l ∉ labelsOf b.nodes) : b.code.fromLabel l = [] :=
  h.orderly.fromLabel_eq_nil hl

theorem realAt?_eq (hns : b.nodes = pre ++ a :: post) (ha : a.instr = .label l) :
    b.code.realAt? l = post.find? Node.isReal :=
  h.orderly.realAt?_eq hns ha

/-- A label is bound by one node. -/
theorem node_of_label {a' : Node} (ha : a ∈ b.nodes) (ha' : a' ∈ b.nodes) (hl : a.instr = .label l)
    (hl' : a'.instr = .label l) : a = a' := by
  obtain ⟨_, _, hns⟩ := append_of_mem ha
  obtain ⟨_, _, hns'⟩ := append_of_mem ha'
  exact (h.orderly.distinct.split_label hns hl hns' hl').2.1

/-- Sending jumps, and handlers if so asked, elsewhere keeps a body well-formed if there is an
instruction behind where jumps go, and where handlers go is bound. -/
theorem redirect {handlers : Bool} (hf : ∀ t ∈ targetsOf b.nodes, Lands b.nodes (f t))
    (hr : ∀ r ∈ b.ranges, f r.handler ∈ labelsOf b.nodes) : (b.redirect f handlers).2.WellFormed := by
  have hs := redirect_strands h.intact f
  -- the ranges of the result are those of `b`, with other handlers at most
  have hranges : ∀ r ∈ (b.redirect f handlers).2.ranges,
      r.start ∈ labelsOf b.nodes ∧ r.stop ∈ labelsOf b.nodes ∧ r.handler ∈ labelsOf b.nodes := by
    intro r hmem
    cases handlers with
    | false => exact h.range_bound hmem
    | true =>
      rw [ranges_redirect] at hmem
      obtain ⟨r', hr', rfl⟩ := mem_map.mp hmem
      exact ⟨(h.range_bound hr').1, (h.range_bound hr').2.1, hr r' hr'⟩
  have hcode := code_redirect b f handlers
  apply wellFormed_of_nodes (by rw [hcode]; exact hs)
  · intro n hn
    obtain ⟨m, hm, rfl⟩ := mem_map.mp hn
    rw [Node.live_retarget]
    exact h.live hm
  · rw [map_map]
    exact h.sound.ids_nodup
  · intro n hn
    obtain ⟨m, hm, rfl⟩ := mem_map.mp hn
    rw [hcode, redirect_nextId]
    exact h.sound.ids_lt m hm
  · rw [labelsOf_map_retarget, hcode, redirect_nextLabel]
    exact h.sound.labels_lt
  · rw [labelsOf_map_retarget]
    exact h.bound_once
  · exact h.closed.retarget hf
  · rw [labelsOf_map_retarget]
    exact hranges
  · rw [labelsOf_map_retarget, locals_redirect]
    exact fun _ => h.local_bound
  · intro n hn
    obtain ⟨m, hm, rfl⟩ := mem_map.mp hn
    rw [Node.instr_retarget, tableFits_mapTargets]
    exact h.tables m hm
  · intro n hn
    obtain ⟨m, hm, rfl⟩ := mem_map.mp hn
    rw [Node.instr_retarget, hasOpcode_mapTargets]
    exact h.maths m hm

/-- Putting one more node into a body keeps it well-formed, if the node has a new number, binds at most a
new label and leaves control inside. -/
theorem inserted {b' : Body} (hns : b.nodes = pre ++ post)
    (hs : b'.code.strands = Listing.single (pre ++ ⟨b.code.nextId, some i⟩ :: post))
    (hid : b'.code.nextId = b.code.nextId + 1) (hlabel : b.code.nextLabel ≤ b'.code.nextLabel)
    (hnew : ∀ l, i.label? = some l → l ∉ labelsOf b.nodes ∧ l < b'.code.nextLabel)
    (hclosed : Closed (pre ++ ⟨b.code.nextId, some i⟩ :: post)) (htable : i.TableFits) (hmath : i.HasOpcode)
    (hranges : b'.ranges = b.ranges) (hlocals : b'.locals = b.locals) : b'.WellFormed := by
  have hmem : ∀ n ∈ pre ++ ⟨b.code.nextId, some i⟩ :: post, n = ⟨b.code.nextId, some i⟩ ∨ n ∈ b.nodes := by
    intro n hn
    rw [hns]
    simp only [mem_append, mem_cons] at hn ⊢
    tauto
  have hsub : (labelsOf b.nodes).Sublist (labelsOf (pre ++ ⟨b.code.nextId, some i⟩ :: post)) := by
    rw [hns]
    exact ((Sublist.refl pre).append (sublist_cons_self ..)).filterMap _
  have hids : b.code.nextId ∉ b.nodes.map Node.id := fun hm => by
    obtain ⟨n, hn, he⟩ := mem_map.mp hm
    exact absurd he (Nat.ne_of_lt (h.sound.ids_lt n hn))
  apply wellFormed_of_nodes hs
  · intro n hn
    rcases hmem n hn with rfl | hn
    · rfl
    · exact h.live hn
  · have hnodup := h.ids_nodup
    rw [hns, map_append] at hnodup hids
    rw [map_append, map_cons, nodup_middle, nodup_cons]
    exact ⟨hids, hnodup⟩
  · intro n hn
    rw [hid]
    rcases hmem n hn with rfl | hn
    · exact Nat.lt_succ_self _
    · exact Nat.lt_succ_of_lt (h.sound.ids_lt n hn)
  · intro l hl
    obtain ⟨n, hn, hnl⟩ := mem_labelsOf.mp hl
    rcases hmem n hn with rfl | hn
    · exact (hnew l (label?_eq_some.mpr hnl)).2
    · exact Nat.lt_of_lt_of_le (h.sound.labels_lt l (mem_labelsOf.mpr ⟨n, hn, hnl⟩)) hlabel
  · have honce := h.bound_once
    rw [hns, labelsOf_append] at honce
    rw [labelsOf_append, labelsOf_cons]
    cases hi : i.label? with
    | none => simpa [hi] using honce
    | some l =>
      have hfresh := (hnew l hi).1
      rw [hns, labelsOf_append] at hfresh
      simp only [Node.instr_some, hi, Option.toList_some, singleton_append]
      rw [nodup_middle, nodup_cons]
      exact ⟨hfresh, honce⟩
  · exact hclosed
  · intro r hr
    rw [hranges] at hr
    have hb := h.range_bound hr
    exact ⟨hsub.subset hb.1, hsub.subset hb.2.1, hsub.subset hb.2.2⟩
  · intro v hv
    rw [hlocals] at hv
    exact ⟨hsub.subset (h.local_bound hv).1, hsub.subset (h.local_bound hv).2⟩
  · intro n hn
    rcases hmem n hn with rfl | hn
    · exact htable
    · exact h.tables n hn
  · intro n hn
    rcases hmem n hn with rfl | hn
    · exact hmath
    · exact h.maths n hn

section

variable (hns : b.nodes = pre ++ n :: post)

include hns

theorem nodes_insertBefore (i : Instr) :
    (b.code.insertBefore n.id i).2.nodes = pre ++ ⟨b.code.nextId, some i⟩ :: n :: post :=
  nodes_of_strands (insertBefore_strands (hns ▸ h.strands) (h.ids_ne_of_append hns) i)

/-- Putting something in front of a node. -/
theorem insertBefore (hl : ∀ l, i.label? = some l → l ∉ labelsOf b.nodes)
    (hf : i.isReal = true → i.fallsThrough = false) (ht : ∀ t ∈ i.targets, Lands b.nodes t) (htable : i.TableFits)
    (hmath : i.HasOpcode) : { b with code := (b.code.insertBefore n.id i).2 }.WellFormed := by
  have hcode := insertBefore_strands (hns ▸ h.strands) (h.ids_ne_of_append hns) i
  have hclosed := h.closed
  rw [hns] at hclosed ht
  refine h.inserted hns hcode rfl ?_ (fun l hi => ⟨hl l hi, ?_⟩) (hclosed.insert hf ht) htable hmath rfl rfl
  · simp only [insertBefore_nextLabel, labelAbove]
    split
    · exact Nat.le_max_left ..
    · exact Nat.le_refl _
  · obtain rfl := label?_eq_some.mp hi
    exact Nat.lt_of_lt_of_le (Nat.lt_succ_self l) (Nat.le_max_right ..)

/-- Putting an instruction that does not fall through in the place of another. -/
theorem replace (hn : n.isReal = true) (hi : i.isReal = true) (hf : i.fallsThrough = false)
    (ht : ∀ t ∈ i.targets, Lands b.nodes t) (htable : i.TableFits) (hmath : i.HasOpcode) :
    { b with code := (b.code.replace n.id i).2 }.WellFormed := by
  have hnl : n.instr.label? = none := label?_of_isReal hn
  have hil : i.label? = none := label?_of_isReal hi
  have hcode := replace_strands (hns ▸ h.strands) (h.live (by rw [hns]; simp)) (h.ids_ne_of_append hns)
    (show n.isLabel = false by simp [Node.isLabel, hnl]) hil
  have hlabels : labelsOf (pre ++ ⟨n.id, some i⟩ :: post) = labelsOf b.nodes := by
    simp [hns, labelsOf_cons, hnl, hil]
  have hids : (pre ++ ⟨n.id, some i⟩ :: post).map Node.id = b.nodes.map Node.id := by simp [hns]
  have hmem : ∀ m ∈ pre ++ ⟨n.id, some i⟩ :: post, m = ⟨n.id, some i⟩ ∨ m ∈ b.nodes := by
    intro m hm
    rw [hns]
    simp only [mem_append, mem_cons] at hm ⊢
    tauto
  have hclosed := h.closed
  rw [hns] at hclosed ht
  apply wellFormed_of_nodes hcode
  · intro m hm
    rcases hmem m hm with rfl | hm
    · rfl
    · exact h.live hm
  · rw [hids]
    exact h.ids_nodup
  · intro m hm
    have hm : m.id ∈ b.nodes.map Node.id := hids ▸ mem_map_of_mem hm
    obtain ⟨k, hk, he⟩ := mem_map.mp hm
    rw [← he, replace_nextId]
    exact h.sound.ids_lt k hk
  · rw [hlabels, replace_nextLabel]
    exact h.sound.labels_lt
  · rw [hlabels]
    exact h.bound_once
  · exact hclosed.swap hn hi hf ht
  · rw [hlabels]
    exact fun _ => h.range_bound
  · rw [hlabels]
    exact fun _ => h.local_bound
  · intro m hm
    rcases hmem m hm with rfl | hm
    · exact htable
    · exact h.tables m hm
  · intro m hm
    rcases hmem m hm with rfl | hm
    · exact hmath
    · exact h.maths m hm

end

/-- Taking out a range keeps a body well-formed. -/
theorem removeRange (i : Nat) : (b.removeRange i).WellFormed :=
  wellFormed_of_nodes h.strands (fun _ => h.live) h.sound.ids_nodup h.sound.ids_lt h.sound.labels_lt
    h.bound_once h.closed (fun _ hr => h.range_bound (mem_of_mem_eraseIdx hr))
    (fun _ => h.local_bound) h.tables h.maths

end Body.WellFormed

end Untangle
