import Untangle.Proofs.Code.Disassembly
import Untangle.Proofs.Code.Execution
import Untangle.Proofs.Simplification.Tidying

/-!
# What is left without dead code

Taking out dead code takes out nodes first, then ranges, then labels, and all by a flow graph of the body as it
was before. It spares what control gets to (`Orderly.spares_removeDeadCode`). So control goes the same ways
afterwards, and there is nothing more to take out.

Nothing is asked of the references of a body: they may lead nowhere, and ranges may be empty or the wrong way
round. But no removed node may be linked to the others. Such a node counts as dead each time, and cannot be
taken out.
-/

namespace Untangle

open List

variable {n : Node} {r : Range}

namespace Body

/-- What is found first stays the first to be found, if it stays. -/
theorem find?_filter_eq {ns : List Node} {test : Node → Bool} (hstays : ∀ m, ns.find? test = some m → stays m = true) :
    (ns.filter stays).find? test = ns.find? test := by
  cases hm : ns.find? test with
  | some m => exact find?_filter hm (hstays m hm)
  | none =>
    rw [find?_eq_none] at hm ⊢
    exact fun n hn => hm n (mem_filter.mp hn).1

namespace Spares

variable {b b' : Body} {stays : Node → Bool} (hs : b.Spares b' stays) (h : b.Orderly) (h' : b'.Orderly)

include hs h h'

/-- A label leads to the same instruction, if both stay. -/
theorem realAt?_eq {t : Label} (hlabel : ∀ a ∈ b.nodes, a.instr = .label t → stays a = true)
    (harrives : ∀ m, b.code.realAt? t = some m → b.Arrives m) : b'.code.realAt? t = b.code.realAt? t := by
  by_cases ht : t ∈ labelsOf b.nodes
  · obtain ⟨pre, a, post, hns, hla⟩ := exists_of_mem_labelsOf ht
    have hns' : b'.nodes = pre.filter stays ++ a :: post.filter stays := by
      rw [hs.nodes, hns, filter_append, filter_cons_of_pos (hlabel a (by simp [hns]) hla)]
    rw [h'.realAt?_eq hns' hla, h.realAt?_eq hns hla]
    refine find?_filter_eq fun m hm => hs.of_arrives (harrives m ?_)
    rw [h.realAt?_eq hns hla, hm]
  · have ht' : t ∉ labelsOf b'.nodes := fun hmem => ht ((hs.sublist.filterMap _).subset hmem)
    rw [Listing.realAt?, Listing.realAt?, h.fromLabel_eq_nil ht, h'.fromLabel_eq_nil ht']

theorem behind?_eq (hn : b.Arrives n) (hfalls : n.instr.fallsThrough = true) : b'.behind? n = b.behind? n := by
  obtain ⟨pre, post, hns⟩ := append_of_mem hn.mem
  have hns' : b'.nodes = pre.filter stays ++ n :: post.filter stays := by
    rw [hs.nodes, hns, filter_append, filter_cons_of_pos (hs.of_arrives hn)]
  rw [h'.behind?_eq hns', h.behind?_eq hns]
  refine find?_filter_eq fun m hm => hs.of_arrives (.step hn (.fall hfalls ?_))
  rw [← h.behind?_eq_some hn.mem, h.behind?_eq hns, hm]

/-- Control goes the same ways from every instruction that it comes to. -/
theorem exits {test : Range → Bool} (hranges : b'.ranges = b.ranges.filter test) (hn : b.Arrives n) :
    b'.exits n = b.exits n := by
  have hreal := Node.isReal_of_acts hn.acts
  have hnext : (if n.instr.fallsThrough then b'.behind? n else none) =
      if n.instr.fallsThrough then b.behind? n else none := by
    split
    · rename_i hfalls
      exact hs.behind?_eq h h' hn hfalls
    · rfl
  have htargets : n.instr.targets.map b'.code.realAt? = n.instr.targets.map b.code.realAt? :=
    map_congr_left fun t ht => hs.realAt?_eq h h' (hs.targets n hn t ht) fun m hm =>
      .step hn (.jump ht (h.heads_iff_realAt?.mpr hm))
  have haround : b'.ranges.filter (fun r => b'.covers r n) = b.ranges.filter fun r => b.covers r n := by
    rw [hranges, filter_filter]
    refine filter_congr fun r hr => ?_
    rw [Bool.eq_iff_iff, Bool.and_eq_true, h.covers_iff hn.mem, h'.covers_iff (hs.mem_of_arrives hn)]
    constructor
    · rintro ⟨hcovers, -⟩
      rw [encloses_iff_covers hreal] at hcovers ⊢
      obtain ⟨a, c, ha, hc, hsub⟩ := hcovers
      exact ⟨a, c, ha, hc, hsub.trans hs.sublist⟩
    · intro hencloses
      have hmem := hs.ranges n hn r hr hencloses
      rw [hranges] at hmem
      exact ⟨hs.encloses hn hr hencloses, (mem_filter.mp hmem).2⟩
  unfold Body.exits
  rw [haround]
  congr 1
  refine map_congr_left fun r hr => ?_
  obtain ⟨hr, hcovers⟩ := mem_filter.mp hr
  rw [h.covers_iff hn.mem] at hcovers
  rw [hs.realAt?_eq h h' (fun a ha hla => hs.bounds n hn r hr hcovers a ha (.inr (.inr hla)))
    fun m hm => .step hn (.thrown hr hcovers (h.heads_iff_realAt?.mpr hm))]

end Spares

/-! ### Taking out dead code -/

/-- The body without dead nodes and without the ranges that protect nothing then. -/
def trimmed (b : Body) : Body := b.withoutDead.withoutBarren.2

theorem ranges_trimmed (b : Body) :
    b.trimmed.ranges = b.ranges.filter fun r => !(b.withoutDead.realBetween r.start r.stop).isEmpty := rfl

/-- The node is not taken out with the dead code. -/
def survives (b : Body) (n : Node) : Bool := b.trimmed.uses n && b.keeps n

theorem keeps_label {b : Body} {a : Node} {l : Label} (ha : a.instr = .label l) : b.keeps a = true := by
  simp [keeps, Node.isLabel, ha, Instruction.label?]

namespace Orderly

variable {b : Body} (h : b.Orderly)

include h

theorem withoutDead : b.withoutDead.Orderly := h.filtered h.strands_withoutDead

theorem nodes_withoutDead : b.withoutDead.nodes = b.nodes.filter b.keeps :=
  Listing.nodes_of_strands h.strands_withoutDead

theorem trimmed : b.trimmed.Orderly := h.filtered h.strands_withoutDead

theorem nodes_trimmed : b.trimmed.nodes = b.nodes.filter b.keeps := h.nodes_withoutDead

theorem removeDeadCode : b.removeDeadCode.2.Orderly := h.trimmed.tidied

/-- A range protects something without the dead nodes if control comes to an instruction in it. -/
theorem realBetween_withoutDead_ne_nil :
    b.withoutDead.realBetween r.start r.stop ≠ [] ↔ ∃ n, b.Arrives n ∧ Encloses b.nodes r.start r.stop n := by
  constructor
  · intro hne
    obtain ⟨n, hn⟩ := exists_mem_of_ne_nil _ hne
    obtain ⟨hreal, a, c, ha, hc, hsub⟩ := h.withoutDead.mem_realBetween.mp hn
    rw [h.nodes_withoutDead] at hsub
    obtain ⟨hmem, hkeeps⟩ := mem_filter.mp (hsub.subset (show n ∈ [a, n, c] by simp))
    exact ⟨n, (h.keeps_iff_arrives hmem hreal).mp hkeeps,
      (encloses_iff_covers hreal).mpr ⟨a, c, ha, hc, hsub.trans filter_sublist⟩⟩
  · rintro ⟨n, hn, hencloses⟩
    have hreal := Node.isReal_of_acts hn.acts
    obtain ⟨a, c, ha, hc, hsub⟩ := (encloses_iff_covers hreal).mp hencloses
    have hkeeps := (h.keeps_iff_arrives hn.mem hreal).mpr hn
    have hsub' := hsub.filter b.keeps
    rw [filter_eq_self.mpr (by simp [keeps_label ha, keeps_label hc, hkeeps]), ← h.nodes_withoutDead] at hsub'
    exact ne_nil_of_mem (h.withoutDead.mem_realBetween.mpr ⟨hreal, a, c, ha, hc, hsub'⟩)

theorem mem_ranges_trimmed : r ∈ b.trimmed.ranges ↔
    r ∈ b.ranges ∧ ∃ n, b.Arrives n ∧ Encloses b.nodes r.start r.stop n := by
  rw [← h.realBetween_withoutDead_ne_nil, ranges_trimmed, mem_filter, Bool.not_eq_true', isEmpty_eq_false_iff]

/-- All that control gets to or goes by stays. -/
theorem spares_removeDeadCode : b.Spares b.removeDeadCode.2 b.survives where
  nodes := by
    rw [show b.removeDeadCode.2.nodes = b.trimmed.tidied.nodes from rfl, h.trimmed.nodes_tidied, h.nodes_trimmed,
      filter_filter]
    rfl
  real n hn hr := by rw [survives, uses_of_isReal hr, Bool.true_and, h.keeps_iff_arrives hn hr]
  targets n hn t ht a _ ha := by
    have hmem : n ∈ b.trimmed.nodes := by
      rw [h.nodes_trimmed]
      exact mem_filter.mpr ⟨hn.mem, (h.keeps_iff_arrives hn.mem (Node.isReal_of_acts hn.acts)).mpr hn⟩
    rw [survives, keeps_label ha, Bool.and_true, uses_label ha]
    exact mem_referenced.mpr (.inl (mem_targetsOf.mpr ⟨n, hmem, ht⟩))
  ranges n hn r hr hencloses := h.mem_ranges_trimmed.mpr ⟨hr, n, hn, hencloses⟩
  bounds n hn r hr hencloses a _ ha := by
    have hmem := h.mem_ranges_trimmed.mpr ⟨hr, n, hn, hencloses⟩
    rcases ha with ha | ha | ha <;> rw [survives, keeps_label ha, Bool.and_true, uses_label ha]
    · exact mem_referenced.mpr (.inr (.inl ⟨r, hmem, .inl rfl⟩))
    · exact mem_referenced.mpr (.inr (.inl ⟨r, hmem, .inr (.inl rfl)⟩))
    · exact mem_referenced.mpr (.inr (.inl ⟨r, hmem, .inr (.inr rfl)⟩))

/-- Nothing is dead afterwards. -/
theorem alive_removeDeadCode : b.removeDeadCode.2.Alive where
  dead := by
    have hs := h.spares_removeDeadCode
    rw [dead_eq_nil_iff h.removeDeadCode.distinct]
    intro n hn hlabel
    refine hs.visits h.distinct (fun _ => h.live) hn ?_
    rw [hs.nodes] at hn
    obtain ⟨hmem, hsurvives⟩ := mem_filter.mp hn
    simp only [survives, keeps, hlabel, h.live hmem, Bool.and_eq_true, Bool.false_or, Bool.not_true, Bool.or_false,
      contains_iff_mem, mem_reachable_iff_visits] at hsurvives
    exact hsurvives.2
  ranges r hr := by
    have hne := (h.mem_ranges_trimmed.mp hr).2
    rw [← h.realBetween_withoutDead_ne_nil] at hne
    obtain ⟨n, hn⟩ := exists_mem_of_ne_nil _ hne
    exact ne_nil_of_mem ((h.trimmed.mem_realBetween_tidied hr).mpr hn)

/-- The ranges that stay are those with an instruction that stays. -/
theorem ranges_removeDeadCode : b.removeDeadCode.2.ranges =
    b.ranges.filter fun r => b.removeDeadCode.2.nodes.any fun n => n.isReal && b.covers r n := by
  have hs := h.spares_removeDeadCode
  rw [show b.removeDeadCode.2.ranges = b.trimmed.ranges from rfl]
  refine filter_congr fun r _ => ?_
  rw [Bool.eq_iff_iff, Bool.not_eq_true', isEmpty_eq_false_iff, h.realBetween_withoutDead_ne_nil, any_eq_true]
  constructor
  · rintro ⟨n, hn, hencloses⟩
    exact ⟨n, hs.mem_of_arrives hn, by simp [Node.isReal_of_acts hn.acts, (h.covers_iff hn.mem).mpr hencloses]⟩
  · rintro ⟨n, hn, hcovers⟩
    obtain ⟨hreal, hcovers⟩ := Bool.and_eq_true _ _ ▸ hcovers
    have hmem := hs.sublist.subset hn
    exact ⟨n, (hs.mem_iff hmem hreal).mp hn, (h.covers_iff hmem).mp hcovers⟩

end Orderly

/-- Taking out dead code takes out what control cannot come to, and changes no way of control. -/
theorem WellFormed.removeDeadCode_keeps_flow {b : Body} (h : b.WellFormed) :
    b.removeDeadCode.2.nodes.Sublist b.nodes ∧
      (∀ n ∈ b.nodes, n.isReal = true → (n ∈ b.removeDeadCode.2.nodes ↔ b.Arrives n)) ∧
      (∀ n ∈ b.removeDeadCode.2.nodes, n.isReal = true → b.removeDeadCode.2.exits n = b.exits n) ∧
      b.removeDeadCode.2.ranges =
        b.ranges.filter (fun r => b.removeDeadCode.2.nodes.any fun n => n.isReal && b.covers r n) ∧
      b.removeDeadCode.2.locals = b.locals ∧
      ∀ l, l ∈ labelsOf b.removeDeadCode.2.nodes ↔ l ∈ b.removeDeadCode.2.referenced := by
  have hs := h.orderly.spares_removeDeadCode
  refine ⟨hs.sublist, fun n hn hr => hs.mem_iff hn hr, fun n hn hr => ?_, h.orderly.ranges_removeDeadCode, rfl,
    fun l => ⟨h.orderly.trimmed.labels_tidied l, h.removeDeadCode.bound l⟩⟩
  exact hs.exits h.orderly h.orderly.removeDeadCode (ranges_trimmed b) ((hs.mem_iff (hs.sublist.subset hn) hr).mp hn)

end Body

/-- Jumps over an instruction that a range protects; another range protects only what is jumped over. -/
def partlyDeadBody : Body where
  maxStack := 1
  maxLocals := 0
  code := .ofInstrs [.label 0, .push .null, .stack .pop, .jump 3, .label 4, .push .null, .raise, .label 1, .label 2,
    .stack .pop, .label 3, .leave none, .label 5]
  ranges := [⟨4, 1, 2, some "E"⟩, ⟨0, 1, 2, none⟩]
  locals := [⟨"x", "I", 4, 3, 0⟩]

theorem partlyDeadBody_wellFormed : partlyDeadBody.WellFormed :=
  Body.wellFormed_ofInstrs rfl (by decide) (by decide)

/-- What is jumped over goes, and the range around it. The jump leads where it led, and is protected as it was. -/
theorem partlyDeadBody_keeps_flow : partlyDeadBody.WellFormed ∧ ¬ partlyDeadBody.Arrives ⟨6, some .raise⟩ ∧
    partlyDeadBody.removeDeadCode.2.ranges = [⟨0, 1, 2, none⟩] ∧
    partlyDeadBody.removeDeadCode.2.exits ⟨3, some (.jump 3)⟩ =
      ⟨none, [some ⟨11, some (.leave none)⟩], [(⟨0, 1, 2, none⟩, some ⟨9, some (.stack .pop)⟩)]⟩ := by
  obtain ⟨-, hnodes, hexits, hranges, -⟩ := partlyDeadBody_wellFormed.removeDeadCode_keeps_flow
  refine ⟨partlyDeadBody_wellFormed, ?_, ?_, ?_⟩
  · rw [← hnodes _ (by decide) rfl]
    decide +kernel
  · rw [hranges]
    decide +kernel
  · rw [hexits _ (by decide +kernel) rfl]
    decide +kernel

/-- Taking out dead code a second time does nothing. -/
theorem Body.Orderly.removeDeadCode_twice {b : Body} (h : b.Orderly) :
    b.removeDeadCode.2.removeDeadCode = (0, b.removeDeadCode.2) := by
  have htidied : b.removeDeadCode.2.tidied = b.removeDeadCode.2 := h.trimmed.tidied_tidied
  rw [h.alive_removeDeadCode.removeDeadCode, htidied]

/-- An instruction and a range go at once, though references lead nowhere, and nothing the second time. -/
theorem looseBody_removeDeadCode_twice : looseBody.Orderly ∧ looseBody.removeDeadCode.1 = 2 ∧
    looseBody.removeDeadCode.2.removeDeadCode = (0, looseBody.removeDeadCode.2) := by
  have h : looseBody.Orderly := ⟨(Listing.sound_ofInstrs _).intact, by decide, by decide⟩
  exact ⟨h, by decide +kernel, h.removeDeadCode_twice⟩

/-- An instruction was put before one that had been removed, which is linked again since. -/
def relinkedBody : Body where
  maxStack := 1
  maxLocals := 0
  code := (((Listing.ofInstrs [.leave none, .stack .pop]).remove 1).2.insertBefore 1 (.leave none)).2

/-- The removed instruction is counted every time, and stays. -/
theorem relinkedBody_removeDeadCode_twice : (labelsOf relinkedBody.nodes).Nodup ∧ relinkedBody.removeDeadCode.1 = 1 ∧
    relinkedBody.removeDeadCode.2 = relinkedBody ∧ relinkedBody.removeDeadCode.2.removeDeadCode.1 = 1 := by
  decide +kernel

end Untangle
