import Untangle.Proofs.Code.Reachability

/-!
# What comes after a node

The instruction that control meets behind a node, when a run of nodes is put together, has its jumps
sent elsewhere, or takes in another node. All ways of control are stated in these terms: falling
through, and coming to a label.
-/

namespace Untangle

open List

variable {ns : List Node} {x m n y : Node} {change : Node → Node} {l start stop : Label} {front back : List Node}
  {k : Node} {t : Label}

/-- `m` is the first instruction behind `x` in a run of nodes. -/
def FirstAfter (ns : List Node) (x m : Node) : Prop :=
  ∃ pre post, ns = pre ++ x :: post ∧ post.find? Node.isReal = some m

/-- No instruction stands behind `x` in a run of nodes. -/
def Trails (ns : List Node) (x : Node) : Prop :=
  ∃ pre post, ns = pre ++ x :: post ∧ post.find? Node.isReal = none

namespace FirstAfter

theorem mem (h : FirstAfter ns x m) : x ∈ ns := by
  obtain ⟨_, _, rfl, -⟩ := h
  simp

theorem mem_right (h : FirstAfter ns x m) : m ∈ ns := by
  obtain ⟨_, _, rfl, hm⟩ := h
  simp [mem_of_find?_eq_some hm]

theorem isReal (h : FirstAfter ns x m) : m.isReal = true := by
  obtain ⟨_, _, -, hm⟩ := h
  exact find?_some hm

end FirstAfter

theorem Trails.mem (h : Trails ns x) : x ∈ ns := by
  obtain ⟨_, _, rfl, -⟩ := h
  simp

theorem firstAfter_append :
    FirstAfter (front ++ back) x m ↔
      FirstAfter front x m ∨ (Trails front x ∧ back.find? Node.isReal = some m) ∨ FirstAfter back x m := by
  constructor
  · rintro ⟨pre, post, he, hm⟩
    rcases split_append he with ⟨mid, rfl, rfl⟩ | ⟨mid, hback, -⟩
    · cases hmid : mid.find? Node.isReal with
      | some k => exact .inl ⟨pre, mid, rfl, by simpa [hmid] using hm⟩
      | none => exact .inr (.inl ⟨⟨pre, mid, rfl, hmid⟩, by simpa [hmid] using hm⟩)
    · exact .inr (.inr ⟨mid, post, hback, hm⟩)
  · rintro (⟨pre, post, rfl, hm⟩ | ⟨⟨pre, post, rfl, hnone⟩, hm⟩ | ⟨pre, post, rfl, hm⟩)
    · exact ⟨pre, post ++ back, by simp, by simp [hm]⟩
    · exact ⟨pre, post ++ back, by simp, by simp [hnone, hm]⟩
    · exact ⟨front ++ pre, post, by simp, hm⟩

theorem firstAfter_cons : FirstAfter (n :: ns) x m ↔ (x = n ∧ ns.find? Node.isReal = some m) ∨ FirstAfter ns x m := by
  have htrails : Trails [n] x ↔ x = n := by
    constructor
    · intro h
      simpa using h.mem
    · rintro rfl
      exact ⟨[], [], rfl, rfl⟩
  have hsingle : ¬FirstAfter [n] x m := by
    rintro ⟨pre, _, he, hm⟩
    cases pre with
    | nil =>
      obtain ⟨-, rfl⟩ := cons.inj he
      cases hm
    | cons _ pre => simp at he
  rw [← singleton_append, firstAfter_append, htrails]
  simp [hsingle]

section

variable (hreal : ∀ n, (change n).isReal = n.isReal)

include hreal

theorem find?_map_isReal (ns : List Node) : (ns.map change).find? Node.isReal = (ns.find? Node.isReal).map change := by
  rw [find?_map, show Node.isReal ∘ change = Node.isReal from funext hreal]

/-- What is met behind a changed node is what was met behind it, changed. -/
theorem met_map {found : Option Node} :
    (∃ pre post, ns.map change = pre ++ y :: post ∧ post.find? Node.isReal = found) ↔
      ∃ x pre post, ns = pre ++ x :: post ∧ change x = y ∧ (post.find? Node.isReal).map change = found := by
  constructor
  · rintro ⟨_, _, he, rfl⟩
    obtain ⟨pre, _, rfl, rfl, hrest⟩ := map_eq_append_iff.mp he
    obtain ⟨x, post, rfl, rfl, rfl⟩ := map_eq_cons_iff.mp hrest
    exact ⟨x, pre, post, rfl, rfl, (find?_map_isReal hreal post).symm⟩
  · rintro ⟨x, pre, post, rfl, rfl, rfl⟩
    exact ⟨pre.map change, post.map change, by simp, find?_map_isReal hreal post⟩

theorem firstAfter_map : FirstAfter (ns.map change) y k ↔ ∃ x m, FirstAfter ns x m ∧ change x = y ∧ change m = k := by
  rw [FirstAfter, met_map hreal]
  constructor
  · rintro ⟨x, pre, post, he, hx, hm⟩
    obtain ⟨m, hm, hk⟩ := Option.map_eq_some_iff.mp hm
    exact ⟨x, m, ⟨pre, post, he, hm⟩, hx, hk⟩
  · rintro ⟨x, m, ⟨pre, post, he, hm⟩, hx, hk⟩
    exact ⟨x, pre, post, he, hx, Option.map_eq_some_iff.mpr ⟨m, hm, hk⟩⟩

theorem trails_map : Trails (ns.map change) y ↔ ∃ x, Trails ns x ∧ change x = y := by
  rw [Trails, met_map hreal]
  constructor
  · rintro ⟨x, pre, post, he, hx, hm⟩
    exact ⟨x, ⟨pre, post, he, Option.map_eq_none_iff.mp hm⟩, hx⟩
  · rintro ⟨x, ⟨pre, post, he, hm⟩, hx⟩
    exact ⟨x, pre, post, he, hx, Option.map_eq_none_iff.mpr hm⟩

end

/-- A node that is no instruction comes between others unnoticed. -/
theorem firstAfter_insert (hx : x.isReal = false) (hy : y ≠ x) :
    FirstAfter (front ++ x :: back) y m ↔ FirstAfter (front ++ back) y m := by
  rw [firstAfter_append, firstAfter_append, firstAfter_cons, find?_cons_of_neg (by simp [hx])]
  simp [hy]

/-- An instruction with nothing but labels and the like behind it is the last one of a run. -/
theorem Trails.find?_reverse (h : Trails ns x) (hx : x.isReal = true) : ns.reverse.find? Node.isReal = some x := by
  obtain ⟨_, post, rfl, hpost⟩ := h
  have hnone : post.reverse.find? Node.isReal = none := by
    simpa [find?_eq_none] using hpost
  simp [hnone, hx]

namespace Body

theorem next_iff {b : Body} :
    b.Next n m ↔ (n.instr.fallsThrough = true ∧ FirstAfter b.nodes n m) ∨
      (∃ t ∈ n.instr.targets, b.code.realAt? t = some m) ∨
      ∃ r ∈ b.ranges, n ∈ b.realBetween r.start r.stop ∧ b.code.realAt? r.handler = some m := by
  constructor
  · intro h
    cases h with
    | fall hns hf hm => exact .inl ⟨hf, _, _, hns, hm⟩
    | jump ht hm => exact .inr (.inl ⟨_, ht, hm⟩)
    | thrown hr hn hm => exact .inr (.inr ⟨_, hr, hn, hm⟩)
  · rintro (⟨hf, _, _, hns, hm⟩ | ⟨t, ht, hm⟩ | ⟨r, hr, hn, hm⟩)
    · exact .fall hns hf hm
    · exact .jump ht hm
    · exact .thrown hr hn hm

namespace WellFormed

variable {b : Body} (h : b.WellFormed)

include h

theorem firstAfter_unique (hm : FirstAfter b.nodes x m) (hk : FirstAfter b.nodes x k) : m = k := by
  obtain ⟨_, _, hns, hm⟩ := hm
  obtain ⟨_, _, hns', hk⟩ := hk
  obtain ⟨rfl, rfl⟩ := h.eq_of_append_cons hns hns'
  exact Option.some.inj (hm.symm.trans hk)

/-- Coming to a label is coming to the first instruction behind it. -/
theorem realAt?_eq_some : b.code.realAt? l = some m ↔ ∃ a, a.instr = .label l ∧ FirstAfter b.nodes a m := by
  constructor
  · intro hm
    obtain ⟨pre, a, post, hns, hla, hm⟩ := h.orderly.exists_of_realAt? hm
    exact ⟨a, hla, pre, post, hns, hm⟩
  · rintro ⟨a, hla, pre, post, hns, hm⟩
    rwa [h.realAt?_eq hns hla]

theorem mem_of_realAt? (hm : b.code.realAt? l = some m) : m ∈ b.nodes := by
  obtain ⟨a, -, ha⟩ := h.realAt?_eq_some.mp hm
  exact ha.mem_right

theorem mem_of_mem_realBetween (hn : n ∈ b.realBetween start stop) : n ∈ b.nodes := by
  obtain ⟨-, _, _, -, -, hsub⟩ := h.mem_realBetween.mp hn
  exact hsub.subset (by simp)

theorem mem_of_reaches (hn : b.Reaches n) : n ∈ b.nodes := by
  cases hn with
  | entry hn => exact mem_of_find?_eq_some hn
  | step _ hstep =>
    rcases next_iff.mp hstep with ⟨-, hm⟩ | ⟨t, -, hm⟩ | ⟨r, -, -, hm⟩
    · exact hm.mem_right
    · exact h.mem_of_realAt? hm
    · exact h.mem_of_realAt? hm

theorem exists_realAt?_of_lands (hl : Lands b.nodes l) : ∃ m, b.code.realAt? l = some m := by
  obtain ⟨_, a, _, hns, hla, n, hn, hr⟩ := hl
  obtain ⟨m, hm⟩ := Option.isSome_iff_exists.mp (find?_isSome.mpr ⟨n, hn, hr⟩)
  exact ⟨m, by rw [h.realAt?_eq hns hla, hm]⟩

/-- Control that comes to a jump can go on at its targets. -/
theorem reaches_of_jump (hn : b.Reaches n) (ht : t ∈ n.instr.targets) :
    ∃ m, b.code.realAt? t = some m ∧ b.Reaches m := by
  have hlands := h.lands t (mem_targetsOf.mpr ⟨n, h.mem_of_reaches hn, ht⟩)
  obtain ⟨m, hm⟩ := h.exists_realAt?_of_lands hlands
  exact ⟨m, hm, .step hn (.jump ht hm)⟩

/-- Either two labels cut the body in three, or there is nothing between them. -/
theorem realBetween_cases (start stop : Label) :
    (∃ pre a mid c post, b.nodes = pre ++ a :: (mid ++ c :: post) ∧ a.instr = .label start ∧
        c.instr = .label stop ∧ b.realBetween start stop = mid.filter Node.isReal) ∨
      b.realBetween start stop = [] := by
  cases hl : b.realBetween start stop with
  | nil => exact .inr rfl
  | cons n =>
    have hn : n ∈ b.realBetween start stop := by simp [hl]
    obtain ⟨-, hcover⟩ := h.mem_realBetween.mp hn
    obtain ⟨pre, a, mid, c, post, hns, ha, hc, -⟩ := covers_iff.mp hcover
    exact .inl ⟨pre, a, mid, c, post, hns, ha, hc, by rw [← hl, h.realBetween_eq hns ha hc]⟩

/-- What stands between two labels of a body that has taken in some nodes, and had some of its
instructions changed where they stood. -/
theorem realBetween_filter {b' : Body} (h' : b'.WellFormed) {old : Node → Bool}
    (hlabel : ∀ n l, (change n).instr = .label l ↔ n.instr = .label l)
    (hreal : ∀ n, (change n).isReal = n.isReal) (hns : b'.nodes.filter old = b.nodes.map change)
    (hstart : start ∈ labelsOf b.nodes) (hstop : stop ∈ labelsOf b.nodes) :
    (b'.realBetween start stop).filter old = (b.realBetween start stop).map change := by
  have hcomp : Node.isReal ∘ change = Node.isReal := funext hreal
  have hcut : ∀ pre a mid c post, b.nodes = pre ++ a :: (mid ++ c :: post) → a.instr = .label start →
      c.instr = .label stop → (b'.realBetween start stop).filter old = (b.realBetween start stop).map change := by
    intro pre a mid c post hb ha hc
    rw [hb] at hns
    simp only [map_append, map_cons] at hns
    obtain ⟨pre', _, hb', -, hrest⟩ := filter_eq_append_iff.mp hns
    obtain ⟨pre₁, _, rfl, -, hold, hrest₁⟩ := filter_eq_cons_iff.mp hrest
    obtain ⟨mid', _, rfl, hmid, hrest₂⟩ := filter_eq_append_iff.mp hrest₁
    obtain ⟨mid₁, post', rfl, hnone', -⟩ := filter_eq_cons_iff.mp hrest₂
    have hb'' : b'.nodes = (pre' ++ pre₁) ++ change a :: ((mid' ++ mid₁) ++ change c :: post') := by
      rw [hb']
      simp
    have hmid₁ : mid₁.filter old = [] := by simpa using hnone'
    rw [h'.realBetween_eq hb'' ((hlabel a start).mpr ha) ((hlabel c stop).mpr hc), h.realBetween_eq hb ha hc,
      filter_comm, filter_append, hmid₁, append_nil, hmid, filter_map, hcomp]
  rcases h.realBetween_cases start stop with ⟨pre, a, mid, c, post, hb, ha, hc, -⟩ | hnil
  · exact hcut pre a mid c post hb ha hc
  · rw [hnil, map_nil, filter_eq_nil_iff]
    intro _ hn' hold
    obtain ⟨hr, a', c', ha', hc', hsub⟩ := h'.mem_realBetween.mp hn'
    -- the labels themselves stood in the body before
    have hkept : ∀ l ∈ labelsOf b.nodes, ∀ x ∈ b'.nodes, x.instr = .label l → old x = true := by
      intro l hl x hx hxl
      obtain ⟨y, hy, hyl⟩ := mem_labelsOf.mp hl
      have hmem : change y ∈ b'.nodes.filter old := hns ▸ mem_map_of_mem hy
      obtain ⟨hmem, hy'⟩ := mem_filter.mp hmem
      rwa [h'.node_of_label hx hmem hxl ((hlabel y l).mpr hyl)]
    have hold_a := hkept start hstart a' (hsub.subset (by simp)) ha'
    have hold_c := hkept stop hstop c' (hsub.subset (by simp)) hc'
    have hsub' := hsub.filter old
    rw [hns, filter_eq_self.mpr (by simp [hold, hold_a, hold_c])] at hsub'
    obtain ⟨run, hrun, he⟩ := sublist_map_iff.mp hsub'
    match run, he with
    | [a, n, c], he =>
      obtain ⟨rfl, rfl, rfl⟩ := he
      have hn : n ∈ b.realBetween start stop :=
        h.mem_realBetween.mpr ⟨by rwa [hreal] at hr, a, c, (hlabel a start).mp ha', (hlabel c stop).mp hc', hrun⟩
      simp [hnil] at hn

end WellFormed

/-! ### A new label -/

/-- A body as it was, or with one more label that was not used in it. -/
inductive Labelled (b : Body) : Body → Prop where
  | same : Labelled b b
  | label {b' : Body} {front back : List Node} {x : Node} {l : Label} : b.nodes = front ++ back →
      b'.nodes = front ++ x :: back → x.instr = .label l → l ∉ labelsOf b.nodes → b'.ranges = b.ranges →
      Labelled b b'

namespace Labelled

variable {b b' : Body} (hl : Labelled b b')

include hl

theorem ranges_eq : b'.ranges = b.ranges := by
  cases hl with
  | same => rfl
  | label _ _ _ _ hranges => exact hranges

theorem subset : b.nodes ⊆ b'.nodes := by
  cases hl with
  | same => exact Subset.refl _
  | label hns hns' =>
    rw [hns, hns']
    exact ((Sublist.refl _).append (sublist_cons_self ..)).subset

theorem mem_of_isReal (hn : n ∈ b'.nodes) (hr : n.isReal = true) : n ∈ b.nodes := by
  cases hl with
  | same => exact hn
  | label hns hns' hx =>
    rw [hns', mem_append, mem_cons] at hn
    rw [hns, mem_append]
    rcases hn with hn | rfl | hn
    · exact .inl hn
    · simp [Node.isReal, hx, Instruction.isReal] at hr
    · exact .inr hn

theorem find?_eq : b'.nodes.find? Node.isReal = b.nodes.find? Node.isReal := by
  cases hl with
  | same => rfl
  | label hns hns' hx =>
    rw [hns, hns', find?_append, find?_append, find?_cons_of_neg (by simp [Node.isReal, hx, Instruction.isReal])]

theorem targetsOf_eq : targetsOf b'.nodes = targetsOf b.nodes := by
  cases hl with
  | same => rfl
  | label hns hns' hx => simp [hns, hns', hx, Instruction.targets]

theorem firstAfter_iff (hn : n ∈ b.nodes) : FirstAfter b'.nodes n m ↔ FirstAfter b.nodes n m := by
  cases hl with
  | same => rfl
  | @label _ _ _ x l hns hns' hx hnew =>
    rw [hns', firstAfter_insert (by simp [Node.isReal, hx, Instruction.isReal]), ← hns]
    rintro rfl
    exact hnew (mem_labelsOf.mpr ⟨n, hn, hx⟩)

variable (h : b.WellFormed) (h' : b'.WellFormed)

include h h'

theorem realAt?_eq_some (ht : t ∈ labelsOf b.nodes) : b'.code.realAt? t = some m ↔ b.code.realAt? t = some m := by
  cases hl with
  | same => rfl
  | @label _ _ _ x l hns hns' hx hnew =>
    have hxr : x.isReal = false := by simp [Node.isReal, hx, Instruction.isReal]
    rw [h'.realAt?_eq_some, h.realAt?_eq_some, hns, hns']
    refine exists_congr fun a => and_congr_right fun ha => firstAfter_insert hxr ?_
    rintro rfl
    rw [hx] at ha
    cases ha
    exact hnew ht

theorem realBetween_eq (hstart : start ∈ labelsOf b.nodes) (hstop : stop ∈ labelsOf b.nodes) :
    b'.realBetween start stop = b.realBetween start stop := by
  cases hl with
  | same => rfl
  | @label _ _ back x l hns hns' hx =>
    have hfront := id_not_mem_of_nodup (hns' ▸ h'.ids_nodup)
    have hback : ∀ n ∈ back, n.id ≠ x.id := by
      intro n hn he
      have := h'.ids_nodup
      rw [hns', map_append, map_cons, nodup_append, nodup_cons] at this
      exact this.2.1.1 (mem_map.mpr ⟨n, hn, he⟩)
    have hold : b'.nodes.filter (fun n => n.id != x.id) = b.nodes.map id := by
      rw [hns', hns, filter_append, filter_cons_of_neg (by simp), map_id,
        filter_eq_self.mpr (by simpa using hfront), filter_eq_self.mpr (by simpa using hback)]
    have he := h.realBetween_filter h' (by simp) (by simp) hold hstart hstop
    rw [map_id, filter_eq_self.mpr] at he
    · exact he
    · intro n hn
      have hr := (h'.mem_realBetween.mp hn).1
      rw [bne_iff_ne]
      intro hid
      rw [eq_of_id_eq h'.ids_nodup (h'.mem_of_mem_realBetween hn) (by simp [hns']) hid] at hr
      simp [Node.isReal, hx, Instruction.isReal] at hr

/-- A new label changes no way of control. -/
theorem next_iff (hn : n ∈ b.nodes) : b'.Next n m ↔ b.Next n m := by
  rw [Body.next_iff, Body.next_iff, hl.ranges_eq, hl.firstAfter_iff hn]
  refine or_congr Iff.rfl (or_congr ?_ ?_)
  · refine exists_congr fun t => and_congr_right fun ht => hl.realAt?_eq_some h h' ?_
    exact (h.lands t (mem_targetsOf.mpr ⟨n, hn, ht⟩)).mem_labelsOf
  · refine exists_congr fun r => and_congr_right fun hr => ?_
    obtain ⟨hstart, hstop, hhandler⟩ := h.range_bound hr
    rw [hl.realBetween_eq h h' hstart hstop, hl.realAt?_eq_some h h' hhandler]

theorem reaches (hn : b.Reaches n) : b'.Reaches n := by
  induction hn with
  | entry hn => exact .entry (by rwa [hl.find?_eq])
  | step hq hstep ih => exact .step ih ((hl.next_iff h h' (h.mem_of_reaches hq)).mpr hstep)

end Labelled

end Body

end Untangle
