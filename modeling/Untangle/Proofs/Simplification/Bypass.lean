import Untangle.Proofs.Code.Disassembly
import Untangle.Proofs.Simplification.ExceptionFlow

/-!
# Ways into an undone range

Where control goes once a redirection was undone. Jumps to the labels of the range's start, and control
that falls into it, are sent on to where the handler goes on. Two ways in are overlooked: the handler of
another range that stands in the throwing sequence, and a jump to a label right in front of the range
that control does not fall into. Without these the sequence cannot be reached any more, and control
goes on where its handler did.
-/

namespace Untangle

open List

variable {n x m k : Node} {t : Label} {y q : Node}

theorem Body.WellFormed.position?_eq (h : b.WellFormed) {pre post : List Node} (hns : b.nodes = pre ++ n :: post) :
    (FlowIndex.of b).position? n.id = some pre.length := by
  have hids := h.ids_ne_of_append hns
  change b.nodes.findIdx? (·.id == n.id) = _
  rw [hns, findIdx?_append, findIdx?_eq_none_iff.mpr (by simpa using hids)]
  simp [findIdx?_cons]

namespace ExceptionFlow

variable {ns : List Node} {r : Range} {b : Body}

/-- A sequence always throws if it ends in a throw and comes to its end. -/
theorem alwaysThrows_iff :
    alwaysThrows ns = true ↔ ∃ front last, ns = front ++ [last] ∧ last.instr = .raise ∧
      ∀ n ∈ front, n.instr.fallsThrough = true ∧ n.instr.targets = [] := by
  unfold alwaysThrows
  cases hrev : ns.reverse with
  | nil =>
    obtain rfl : ns = [] := by simpa using hrev
    simp
  | cons last front =>
    obtain rfl : ns = front.reverse ++ [last] := by
      rw [← reverse_reverse ns, hrev, reverse_cons]
    simp only [Bool.and_eq_true, beq_iff_eq, Instruction.isJump]
    constructor
    · rintro ⟨hlast, hfront⟩
      exact ⟨_, _, rfl, hlast, by simpa using hfront⟩
    · rintro ⟨_, last', he, hlast, hfront⟩
      obtain ⟨hf, he'⟩ := append_inj' he rfl
      obtain rfl : last = last' := by simpa using he'
      exact ⟨hlast, by simpa [← hf] using hfront⟩

theorem targets_of_alwaysThrows (h : alwaysThrows ns = true) : ∀ n ∈ ns, n.instr.targets = [] := by
  obtain ⟨_, last, rfl, hlast, hfront⟩ := alwaysThrows_iff.mp h
  intro n hn
  rcases mem_append.mp hn with hn | hn
  · exact (hfront n hn).2
  · obtain rfl : n = last := by simpa using hn
    simp [hlast, Instruction.targets]

/-! ### Around a range -/

/-- A body around a range that covers an instruction: between the range's start and `first`, its first
instruction, there are only labels and the like. -/
structure Site (b : Body) (r : Range) where
  pre : List Node
  start : Node
  lead : List Node
  first : Node
  tail : List Node
  stop : Node
  post : List Node
  nodes_eq : b.nodes = pre ++ start :: (lead ++ first :: (tail ++ stop :: post))
  start_eq : start.instr = .label r.start
  stop_eq : stop.instr = .label r.stop
  lead_eq : ∀ n ∈ lead, n.isReal = false
  first_real : first.isReal = true

theorem exists_site (h : b.WellFormed) (hne : b.realBetween r.start r.stop ≠ []) : Nonempty (Site b r) := by
  rcases h.realBetween_cases r.start r.stop with ⟨pre, a, _, c, post, hns, ha, hc, he⟩ | hnil
  · obtain ⟨n, hn⟩ := exists_mem_of_ne_nil _ hne
    rw [he] at hn
    obtain ⟨first, hfirst⟩ := Option.isSome_iff_exists.mp (find?_isSome.mpr ⟨n, mem_filter.mp hn⟩)
    obtain ⟨hr, lead, tail, rfl, hlead⟩ := find?_eq_some_iff_append.mp hfirst
    exact ⟨⟨pre, a, lead, first, tail, c, post, by simpa using hns, ha, hc, by simpa using hlead, hr⟩⟩
  · exact absurd hnil hne

namespace Site

variable {b : Body} {r : Range} (s : Site b r)

/-- The body from the start of the range on. -/
def rest : List Node := s.start :: (s.lead ++ s.first :: (s.tail ++ s.stop :: s.post))

/-- The labels between the start of the range and its first instruction. -/
def entries : List Label := labelsOf (s.start :: s.lead)

/-- No jump goes to a label between the first and the last instruction of the range. -/
def Straight : Prop :=
  ∀ front x back t, s.tail = front ++ x :: back → x.instr = .label t → t ∈ targetsOf b.nodes →
    ∀ n ∈ back, n.isReal = false

theorem nodes_eq_rest : b.nodes = s.pre ++ s.rest := s.nodes_eq

theorem start_not_real : s.start.isReal = false := by simp [Node.isReal, s.start_eq, Instruction.isReal]

theorem entry_not_real : ∀ n ∈ s.start :: s.lead, n.isReal = false :=
  forall_mem_cons.mpr ⟨s.start_not_real, s.lead_eq⟩

theorem find?_rest : s.rest.find? Node.isReal = some s.first := by
  have hlead : s.lead.find? Node.isReal = none := find?_eq_none.mpr (by simpa using s.lead_eq)
  rw [rest, find?_cons_of_neg (by simp [s.start_not_real]), find?_append, hlead]
  simp [s.first_real]

/-- What comes behind a node: the range's first instruction comes behind what trails in front of it. -/
theorem firstAfter_iff :
    FirstAfter b.nodes x m ↔
      FirstAfter s.pre x m ∨ (Trails s.pre x ∧ m = s.first) ∨ FirstAfter s.rest x m := by
  rw [s.nodes_eq_rest, firstAfter_append, s.find?_rest]
  simp [eq_comm]

variable (h : b.WellFormed)

include h

theorem realBetween_eq : b.realBetween r.start r.stop = s.first :: s.tail.filter Node.isReal := by
  have hns : b.nodes = s.pre ++ s.start :: ((s.lead ++ s.first :: s.tail) ++ s.stop :: s.post) := by
    simp [s.nodes_eq]
  have hlead : s.lead.filter Node.isReal = [] := by simpa using s.lead_eq
  rw [h.realBetween_eq hns s.start_eq s.stop_eq]
  simp [hlead, s.first_real]

theorem entryLabels_eq : entryLabels b r.start = s.entries := by
  have hlive : ∀ n ∈ s.start :: s.lead, (n.live && !n.isReal) = true := by
    intro n hn
    have hmem : n ∈ b.nodes := by
      rw [s.nodes_eq]
      rcases mem_cons.mp hn with rfl | hn
      · simp
      · simp [hn]
    simp [h.live hmem, s.entry_not_real n hn]
  rw [entryLabels, h.fromLabel_eq s.nodes_eq s.start_eq, ← cons_append, takeWhile_append_of_pos hlive]
  simp [s.first_real, entries, labelsOf]

theorem first_mem : s.first ∈ b.realBetween r.start r.stop := by simp [s.realBetween_eq h]

/-- A node of the range is found in one place. -/
theorem not_mem_pre (hn : n ∈ b.realBetween r.start r.stop) : n ∉ s.pre := by
  intro hpre
  have hnd := h.nodup
  rw [s.nodes_eq, nodup_append] at hnd
  rw [s.realBetween_eq h] at hn
  refine hnd.2.2 n hpre n ?_ rfl
  rcases mem_cons.mp hn with rfl | hn
  · simp
  · simp [(mem_filter.mp hn).1]

/-- Behind the start of the range, what comes to one of its instructions is a label in front of the first
one, or stands inside. -/
theorem enters_rest (hx : FirstAfter s.rest x m) (hm : m ∈ b.realBetween r.start r.stop) :
    (x ∈ s.start :: s.lead ∧ m = s.first) ∨ x = s.first ∨
      ∃ front back, s.tail = front ++ x :: back ∧ m ∈ back := by
  have hnd := h.nodup
  rw [s.nodes_eq, nodup_append, nodup_cons, nodup_append, nodup_cons, nodup_append] at hnd
  have hm' : m ∈ s.first :: s.tail := by
    rw [s.realBetween_eq h] at hm
    exact cons_subset_cons _ (filter_subset_self _) hm
  have hnot : m ∉ s.stop :: s.post := by
    intro hpost
    rcases mem_cons.mp hm' with rfl | htail
    · exact hnd.2.1.2.2.1.1 (by simp [mem_cons.mp hpost])
    · exact hnd.2.1.2.2.1.2.2.2 m htail m hpost rfl
  have hlead : s.lead.find? Node.isReal = none := find?_eq_none.mpr (by simpa using s.lead_eq)
  rw [rest, firstAfter_cons, firstAfter_append, firstAfter_cons, firstAfter_append] at hx
  rcases hx with ⟨rfl, hf⟩ | hx | ⟨hx, hf⟩ | ⟨rfl, -⟩ | hx | ⟨⟨front, back, htail, -⟩, hf⟩ | hx
  · rw [find?_append, hlead] at hf
    exact .inl ⟨by simp, by simpa [s.first_real, eq_comm] using hf⟩
  · have := s.lead_eq m hx.mem_right
    simp [hx.isReal] at this
  · exact .inl ⟨by simp [hx.mem], by simpa [s.first_real, eq_comm] using hf⟩
  · exact .inr (.inl rfl)
  · obtain ⟨front, back, htail, hf⟩ := hx
    exact .inr (.inr ⟨front, back, htail, mem_of_find?_eq_some hf⟩)
  · exact absurd (mem_of_find?_eq_some hf) hnot
  · exact absurd hx.mem_right hnot

/-- An instruction that comes right before the range is the last one in front of it. -/
theorem trails_of_enters (hx : FirstAfter b.nodes x m) (hr : x.isReal = true)
    (hout : x ∉ b.realBetween r.start r.stop) (hm : m ∈ b.realBetween r.start r.stop) :
    Trails s.pre x ∧ m = s.first := by
  rcases s.firstAfter_iff.mp hx with hpre | htrails | hrest
  · exact absurd hpre.mem_right (s.not_mem_pre h hm)
  · exact htrails
  · rw [s.realBetween_eq h] at hout
    rcases s.enters_rest h hrest hm with ⟨hmem, -⟩ | rfl | ⟨_, _, htail, -⟩
    · have := s.entry_not_real x hmem
      simp [hr] at this
    · simp at hout
    · simp [htail, hr] at hout

/-- A label that leads into the sequence stands in front of it, or in its middle where no jump goes. -/
theorem leads_in (hs : s.Straight) (ht : t ∈ targetsOf b.nodes) (hm : b.code.realAt? t = some m)
    (hin : m ∈ b.realBetween r.start r.stop) : t ∈ s.entries ∨ ∃ a, a.instr = .label t ∧ Trails s.pre a := by
  obtain ⟨a, hla, ha⟩ := h.realAt?_eq_some.mp hm
  rcases s.firstAfter_iff.mp ha with hpre | ⟨htrails, -⟩ | hrest
  · exact absurd hpre.mem_right (s.not_mem_pre h hin)
  · exact .inr ⟨a, hla, htrails⟩
  · rcases s.enters_rest h hrest hin with ⟨hmem, -⟩ | rfl | ⟨front, back, htail, hback⟩
    · exact .inl (mem_labelsOf.mpr ⟨a, hmem, hla⟩)
    · have := s.first_real
      simp [Node.isReal, hla, Instruction.isReal] at this
    · have := hs front a back t htail hla ht m hback
      simp [ha.isReal] at this

/-- Nothing jumps into the middle of a sequence that was looked at. -/
theorem straight_of_not_jumpsInside {first last : Nat}
    (hfirst : ((b.realBetween r.start r.stop).head?.bind fun n => (FlowIndex.of b).position? n.id) = some first)
    (hlast : ((b.realBetween r.start r.stop).getLast?.bind fun n => (FlowIndex.of b).position? n.id) = some last)
    (hin : ¬jumpsInside (FlowIndex.of b) first last = true) : s.Straight := by
  intro front x _ t htail hx ht n hn
  by_contra hr
  have hr : n.isReal = true := by simpa using hr
  obtain ⟨mid, z, after, rfl, hz, hafter⟩ := exists_last ⟨n, hn, hr⟩
  have hnsf : b.nodes = (s.pre ++ s.start :: s.lead) ++ s.first :: (s.tail ++ s.stop :: s.post) := by
    simp [s.nodes_eq]
  have hnsx : b.nodes = (s.pre ++ s.start :: (s.lead ++ s.first :: front)) ++
      x :: (mid ++ z :: after ++ s.stop :: s.post) := by
    simp [s.nodes_eq, htail]
  have hnsz : b.nodes = (s.pre ++ s.start :: (s.lead ++ s.first :: (front ++ x :: mid))) ++
      z :: (after ++ s.stop :: s.post) := by
    simp [s.nodes_eq, htail]
  have hp : first = (s.pre ++ s.start :: s.lead).length := by
    rw [s.realBetween_eq h, head?_cons, Option.bind_some, h.position?_eq hnsf] at hfirst
    exact (Option.some.inj hfirst).symm
  have hq : last = (s.pre ++ s.start :: (s.lead ++ s.first :: (front ++ x :: mid))).length := by
    have hgl : (b.realBetween r.start r.stop).getLast? = some z := by
      rw [s.realBetween_eq h, htail]
      have hgl : ((s.first :: (front ++ x :: mid) ++ z :: after).filter Node.isReal).getLast? = some z :=
        getLast?_filter_real hz hafter
      simpa [s.first_real] using hgl
    rw [hgl, Option.bind_some, h.position?_eq hnsz] at hlast
    exact (Option.some.inj hlast).symm
  have hpos : (t, (s.pre ++ s.start :: (s.lead ++ s.first :: front)).length) ∈ (FlowIndex.of b).labels := by
    refine (lookup_eq_some_of_nodup (by rw [FlowIndex.of, map_fst_labelPositions]; exact h.bound_once)).mp ?_
    exact h.labelPosition_eq_some.mpr ⟨x, by rw [hnsx]; simp, hx⟩
  have hjump : (FlowIndex.of b).isJumpTarget t = true := by
    obtain ⟨q, hq, htq⟩ := mem_targetsOf.mp ht
    simp only [FlowIndex.isJumpTarget, FlowIndex.of, any_eq_true, mem_flatMap, mem_map]
    exact ⟨(t, q.id), ⟨q, hq, t, htq, rfl⟩, by simp⟩
  refine hin (any_eq_true.mpr ⟨_, hpos, ?_⟩)
  simp [hjump, hp, hq]

end Site

/-! ### A bypassed range -/

theorem fallsIn_of_trails (ht : Trails ns x) (hr : x.isReal = true) (hf : x.instr.fallsThrough = true) :
    FallsIn ns := by
  intro n hn
  rw [ht.find?_reverse hr] at hn
  cases hn
  exact hf

/-- Jumps to the start of the range go to `target` instead, a jump there is put in front of the range if
control falls into it, and the range is gone. -/
structure Bypassed {b : Body} {r : Range} (s : Site b r) (target : Label) (index : Nat) (b' : Body) where
  inserted : List Node
  nodes_eq : b'.nodes = s.pre.map (Node.retarget (sendTo s.entries target)) ++
    (inserted ++ s.rest.map (Node.retarget (sendTo s.entries target)))
  inserted_eq : (FallsIn s.pre ∧ ∃ id, inserted = [⟨id, some (.jump target)⟩]) ∨ ¬FallsIn s.pre ∧ inserted = []
  ranges_eq : b'.ranges = b.ranges.eraseIdx index

theorem exists_bypassed (h : b.WellFormed) (s : Site b r) (ht : Lands b.nodes target) (index : Nat) :
    Nonempty (Bypassed s target index
      ({ b with code := bypass b.code (entryLabels b r.start) r.start target }.removeRange index)) := by
  rw [s.entryLabels_eq h]
  obtain ⟨-, inserted, hnodes, hinserted⟩ := h.bypass ht s.nodes_eq s.start_eq s.entries
  exact ⟨⟨inserted, hnodes, hinserted, rfl⟩⟩

namespace Bypassed

variable {b b' : Body} {r : Range} {s : Site b r} {target : Label} {index : Nat} (p : Bypassed s target index b')

/-- How a node of the body before looks now. -/
def now (_ : Bypassed s target index b') (n : Node) : Node := n.retarget (sendTo s.entries target)

/-- What control comes to that comes to the range from the front. -/
def gate : Node := p.inserted.head?.getD (p.now s.first)

theorem nodes_eq_now : b'.nodes = s.pre.map p.now ++ (p.inserted ++ s.rest.map p.now) := p.nodes_eq

theorem id_now (n : Node) : (p.now n).id = n.id := rfl

theorem isReal_now (n : Node) : (p.now n).isReal = n.isReal := Node.isReal_retarget _ n

theorem label_now (n : Node) (l : Label) : (p.now n).instr = .label l ↔ n.instr = .label l := by
  rw [← Instruction.label?_eq_some, ← Instruction.label?_eq_some, now, Node.instr_retarget,
    Instruction.label?_mapTargets]

theorem fallsThrough_now (n : Node) : (p.now n).instr.fallsThrough = n.instr.fallsThrough := by
  simp [now]

theorem targets_now (n : Node) : (p.now n).instr.targets = n.instr.targets.map (sendTo s.entries target) := by
  simp [now]

theorem now_eq_self (hn : n.instr.targets = []) : p.now n = n :=
  Node.retarget_eq_self (by simp [hn])

theorem instr_inserted (hn : n ∈ p.inserted) : n.instr = .jump target := by
  rcases p.inserted_eq with ⟨-, _, he⟩ | ⟨-, he⟩
  · rw [he, mem_singleton] at hn
    simp [hn]
  · simp [he] at hn

theorem gate_mem (hf : FallsIn s.pre) : p.gate ∈ p.inserted := by
  rcases p.inserted_eq with ⟨-, _, he⟩ | ⟨hno, -⟩
  · simp [gate, he]
  · exact absurd hf hno

theorem gate_eq : p.gate ∈ p.inserted ∨ ¬FallsIn s.pre ∧ p.gate = p.now s.first := by
  rcases p.inserted_eq with ⟨hf, -⟩ | ⟨hno, he⟩
  · exact .inl (p.gate_mem hf)
  · exact .inr ⟨hno, by simp [gate, he]⟩

theorem find?_now (ns : List Node) : (ns.map p.now).find? Node.isReal = (ns.find? Node.isReal).map p.now :=
  find?_map_isReal p.isReal_now ns

theorem find?_gate : (p.inserted ++ s.rest.map p.now).find? Node.isReal = some p.gate := by
  rcases p.inserted_eq with ⟨-, _, he⟩ | ⟨-, he⟩
  · simp [he, gate, Node.isReal, Instruction.isReal]
  · simp [he, gate, p.find?_now, s.find?_rest]

/-- What comes behind a node now. -/
theorem firstAfter_iff :
    FirstAfter b'.nodes y k ↔
      (∃ x m, (FirstAfter s.pre x m ∨ FirstAfter s.rest x m) ∧ p.now x = y ∧ p.now m = k) ∨
        (∃ x, Trails s.pre x ∧ p.now x = y ∧ k = p.gate) ∨ (y ∈ p.inserted ∧ k = p.now s.first) := by
  have hins : FirstAfter (p.inserted ++ s.rest.map p.now) y k ↔
      (y ∈ p.inserted ∧ k = p.now s.first) ∨ FirstAfter (s.rest.map p.now) y k := by
    rcases p.inserted_eq with ⟨-, _, he⟩ | ⟨-, he⟩
    · rw [he, singleton_append, firstAfter_cons, p.find?_now, s.find?_rest]
      simp [eq_comm]
    · simp [he]
  have hmap : ∀ ns, FirstAfter (ns.map p.now) y k ↔ ∃ x m, FirstAfter ns x m ∧ p.now x = y ∧ p.now m = k :=
    fun ns => firstAfter_map p.isReal_now
  have htrails : Trails (s.pre.map p.now) y ↔ ∃ x, Trails s.pre x ∧ p.now x = y := trails_map p.isReal_now
  rw [p.nodes_eq_now, firstAfter_append, p.find?_gate, hins, hmap, hmap, htrails]
  constructor
  · rintro (⟨x, m, hx, rfl, rfl⟩ | ⟨⟨x, hx, rfl⟩, hk⟩ | hk | ⟨x, m, hx, rfl, rfl⟩)
    · exact .inl ⟨x, m, .inl hx, rfl, rfl⟩
    · exact .inr (.inl ⟨x, hx, rfl, (Option.some.inj hk).symm⟩)
    · exact .inr (.inr hk)
    · exact .inl ⟨x, m, .inr hx, rfl, rfl⟩
  · rintro (⟨x, m, hx | hx, rfl, rfl⟩ | ⟨x, hx, rfl, rfl⟩ | hk)
    · exact .inl ⟨x, m, hx, rfl, rfl⟩
    · exact .inr (.inr (.inr ⟨x, m, hx, rfl, rfl⟩))
    · exact .inr (.inl ⟨⟨x, hx, rfl⟩, rfl⟩)
    · exact .inr (.inr (.inl hk))

/-- A node stands where another one stood: it is what that one became, or the jump in front of the range. -/
def Meets (m k : Node) : Prop := k = p.now m ∨ (k ∈ p.inserted ∧ m = s.first)

theorem meets_gate : p.Meets s.first p.gate := by
  rcases p.gate_eq with hmem | ⟨-, he⟩
  · exact .inr ⟨hmem, rfl⟩
  · exact .inl he

/-- What comes behind a node stands where something came behind it before. -/
theorem firstAfter_before (hk : FirstAfter b'.nodes y k) :
    y ∈ p.inserted ∨ ∃ x m, p.now x = y ∧ FirstAfter b.nodes x m ∧ p.Meets m k := by
  rcases p.firstAfter_iff.mp hk with ⟨x, m, hx, rfl, rfl⟩ | ⟨x, hx, rfl, rfl⟩ | ⟨hy, -⟩
  · refine .inr ⟨x, m, rfl, s.firstAfter_iff.mpr ?_, .inl rfl⟩
    exact hx.imp id .inr
  · exact .inr ⟨x, s.first, rfl, s.firstAfter_iff.mpr (.inr (.inl ⟨hx, rfl⟩)), p.meets_gate⟩
  · exact .inl hy

theorem firstAfter_now (hm : FirstAfter b.nodes x m) : ∃ k, FirstAfter b'.nodes (p.now x) k ∧ p.Meets m k := by
  rcases s.firstAfter_iff.mp hm with hm | ⟨hx, rfl⟩ | hm
  · exact ⟨p.now m, p.firstAfter_iff.mpr (.inl ⟨x, m, .inl hm, rfl, rfl⟩), .inl rfl⟩
  · exact ⟨p.gate, p.firstAfter_iff.mpr (.inr (.inl ⟨x, hx, rfl, rfl⟩)), p.meets_gate⟩
  · exact ⟨p.now m, p.firstAfter_iff.mpr (.inl ⟨x, m, .inr hm, rfl, rfl⟩), .inl rfl⟩

theorem entry_before (hk : b'.nodes.find? Node.isReal = some k) :
    ∃ m, b.nodes.find? Node.isReal = some m ∧ p.Meets m k := by
  rw [p.nodes_eq_now, find?_append, p.find?_gate, p.find?_now] at hk
  rw [s.nodes_eq_rest, find?_append, s.find?_rest]
  cases hpre : s.pre.find? Node.isReal with
  | none =>
    rw [hpre] at hk
    refine ⟨s.first, rfl, ?_⟩
    obtain rfl : p.gate = k := by simpa using hk
    exact p.meets_gate
  | some m =>
    rw [hpre] at hk
    obtain rfl : p.now m = k := by simpa using hk
    exact ⟨m, rfl, .inl rfl⟩

/-- A body that begins with the range begins with the jump in front of it now. -/
theorem entry_now (hm : b.nodes.find? Node.isReal = some m) :
    (m ∈ s.pre ∧ b'.nodes.find? Node.isReal = some (p.now m)) ∨
      (p.gate ∈ p.inserted ∧ b'.nodes.find? Node.isReal = some p.gate) := by
  rw [s.nodes_eq_rest] at hm
  rw [p.nodes_eq_now, find?_append, p.find?_gate, p.find?_now]
  cases hpre : s.pre.find? Node.isReal with
  | none =>
    refine .inr ⟨p.gate_mem fun n hn => ?_, by simp⟩
    have hr := find?_some hn
    have hmem : n ∈ s.pre := mem_reverse.mp (mem_of_find?_eq_some hn)
    exact absurd hr (find?_eq_none.mp hpre n hmem)
  | some k =>
    obtain rfl : k = m := by simpa [hpre] using hm
    exact .inl ⟨mem_of_find?_eq_some hpre, by simp⟩

include p in
theorem mem_nodes : n ∈ b'.nodes ↔ n ∈ p.inserted ∨ ∃ x ∈ b.nodes, p.now x = n := by
  rw [p.nodes_eq_now, s.nodes_eq_rest]
  simp only [mem_append, mem_map]
  constructor
  · rintro (⟨x, hx, he⟩ | hmem | ⟨x, hx, he⟩)
    · exact .inr ⟨x, .inl hx, he⟩
    · exact .inl hmem
    · exact .inr ⟨x, .inr hx, he⟩
  · rintro (hmem | ⟨x, hx | hx, he⟩)
    · exact .inr (.inl hmem)
    · exact .inl ⟨x, hx, he⟩
    · exact .inr (.inr ⟨x, hx, he⟩)

include p in
/-- No jump goes to the start of the range any more, and the labels that jumps go to were gone to before. -/
theorem targets_before (htarget : target ∉ s.entries) (hq : q ∈ b'.nodes) (ht : t ∈ q.instr.targets) :
    t ∉ s.entries ∧ (t = target ∨ t ∈ targetsOf b.nodes) := by
  rcases p.mem_nodes.mp hq with hmem | ⟨x, hx, rfl⟩
  · rw [p.instr_inserted hmem] at ht
    obtain rfl : t = target := by simpa [Instruction.targets] using ht
    exact ⟨htarget, .inl rfl⟩
  · rw [p.targets_now] at ht
    obtain ⟨_, ht₀, rfl⟩ := mem_map.mp ht
    unfold sendTo
    split
    · exact ⟨htarget, .inl rfl⟩
    · rename_i hno
      exact ⟨by simpa using hno, .inr (mem_targetsOf.mpr ⟨x, hx, ht₀⟩)⟩

variable (h : b.WellFormed) (h' : b'.WellFormed)

include h h'

theorem realAt?_before (hk : b'.code.realAt? t = some k) : ∃ m, b.code.realAt? t = some m ∧ p.Meets m k := by
  obtain ⟨y, hly, hy⟩ := h'.realAt?_eq_some.mp hk
  rcases p.firstAfter_before hy with hmem | ⟨x, m, rfl, hx, hm⟩
  · rw [p.instr_inserted hmem] at hly
    cases hly
  · exact ⟨m, h.realAt?_eq_some.mpr ⟨x, (p.label_now x t).mp hly, hx⟩, hm⟩

theorem realAt?_now (hm : b.code.realAt? t = some m) : ∃ k, b'.code.realAt? t = some k ∧ p.Meets m k := by
  obtain ⟨x, hlx, hx⟩ := h.realAt?_eq_some.mp hm
  obtain ⟨k, hk, hmeets⟩ := p.firstAfter_now hx
  exact ⟨k, h'.realAt?_eq_some.mpr ⟨p.now x, (p.label_now x t).mpr hlx, hk⟩, hmeets⟩

omit h in
/-- A label right in front of the range leads to the gate. -/
theorem realAt?_gate {a : Node} (ha : a.instr = .label t) (htrails : Trails s.pre a) :
    b'.code.realAt? t = some p.gate :=
  h'.realAt?_eq_some.mpr ⟨p.now a, (p.label_now a t).mpr ha, p.firstAfter_iff.mpr (.inr (.inl ⟨a, htrails, rfl, rfl⟩))⟩

omit h in
/-- The jump in front of the range aside, there is what there was. -/
theorem filter_not_inserted : b'.nodes.filter (fun n => !p.inserted.contains n) = b.nodes.map p.now := by
  have hnd := h'.ids_nodup
  rw [p.nodes_eq_now, map_append, map_append, nodup_append, nodup_append] at hnd
  have hpre : ∀ n ∈ s.pre.map p.now, (!p.inserted.contains n) = true := by
    intro n hn
    simp only [Bool.not_eq_true', contains_eq_mem, decide_eq_false_iff_not]
    exact fun hmem => hnd.2.2 _ (mem_map_of_mem hn) _ (mem_append_left _ (mem_map_of_mem hmem)) rfl
  have hrest : ∀ n ∈ s.rest.map p.now, (!p.inserted.contains n) = true := by
    intro n hn
    simp only [Bool.not_eq_true', contains_eq_mem, decide_eq_false_iff_not]
    exact fun hmem => hnd.2.1.2.2 _ (mem_map_of_mem hmem) _ (mem_map_of_mem hn) rfl
  rw [p.nodes_eq_now, filter_append, filter_append, filter_eq_self.mpr hpre, filter_eq_self.mpr hrest,
    filter_eq_nil_iff.mpr (by simp), s.nodes_eq_rest, map_append, nil_append]

/-- Between two labels stands what stood there. -/
theorem now_mem_realBetween {start stop : Label} (hstart : start ∈ labelsOf b.nodes) (hstop : stop ∈ labelsOf b.nodes)
    (hn : n ∈ b.realBetween start stop) : p.now n ∈ b'.realBetween start stop := by
  have he := h.realBetween_filter h' p.label_now p.isReal_now (p.filter_not_inserted h') hstart hstop
  have hmem : p.now n ∈ (b.realBetween start stop).map p.now := mem_map_of_mem hn
  rw [← he] at hmem
  exact (mem_filter.mp hmem).1

end Bypassed

/-! ### Where control goes -/

/-- Control can fall into what stands behind a label. -/
def FallsInto (b : Body) (l : Label) : Prop :=
  ∃ pre a post, b.nodes = pre ++ a :: post ∧ a.instr = .label l ∧ FallsIn pre

/-- An instruction has a way into a range of `b` that is still there in `b'`, where the range is undone:
it is covered by another range with a handler in the sequence, or it jumps to a label right in front of
the range, which control does not fall into. -/
inductive Overlooked (b b' : Body) (r : Range) (n : Node) : Prop where
  | handler {q : Range} {m : Node} : q ∈ b'.ranges → n ∈ b'.realBetween q.start q.stop →
      b'.code.realAt? q.handler = some m → m ∈ b.realBetween r.start r.stop → Overlooked b b' r n
  | front {t : Label} {m : Node} : t ∈ n.instr.targets → t ∉ entryLabels b r.start → ¬FallsInto b r.start →
      b'.code.realAt? t = some m → m ∈ b.realBetween r.start r.stop → Overlooked b b' r n

/-- Some instruction outside of the range can be reached and has an overlooked way into it. -/
def Leaks (b b' : Body) (r : Range) : Prop :=
  ∃ n, n ∉ b.realBetween r.start r.stop ∧ b'.Reaches n ∧ Overlooked b b' r n

theorem Site.fallsInto_iff (h : b.WellFormed) (s : Site b r) : FallsInto b r.start ↔ FallsIn s.pre := by
  constructor
  · rintro ⟨_, a, _, hns, ha, hfalls⟩
    obtain rfl := h.node_of_label (by simp [hns]) (by simp [s.nodes_eq]) ha s.start_eq
    obtain ⟨rfl, -⟩ := h.eq_of_append_cons hns s.nodes_eq
    exact hfalls
  · intro hfalls
    exact ⟨s.pre, s.start, _, s.nodes_eq, s.start_eq, hfalls⟩

namespace Bypassed

variable {b b' : Body} {r : Range} {s : Site b r} {target : Label} {index : Nat} (p : Bypassed s target index b')
  (h : b.WellFormed) (h' : b'.WellFormed)
  (hquiet : ∀ n ∈ b.realBetween r.start r.stop, n.instr.targets = [])

include hquiet

theorem not_mem_inserted (hin : n ∈ b.realBetween r.start r.stop) : n ∉ p.inserted := by
  intro hmem
  have := hquiet n hin
  simp [p.instr_inserted hmem, Instruction.targets] at this

include h

/-- What stands where another node stood is in the sequence only if it is that node. -/
theorem eq_of_meets (hm : m ∈ b.nodes) (hmeets : p.Meets m n) (hin : n ∈ b.realBetween r.start r.stop) : m = n := by
  rcases hmeets with rfl | ⟨hmem, -⟩
  · exact (eq_of_id_eq h.ids_nodup (h.mem_of_mem_realBetween hin) hm rfl).symm
  · exact absurd hmem (p.not_mem_inserted hquiet hin)

include p h'

/-- A jump that still leads into the sequence goes to a label right in front of it. -/
theorem overlooked_of_jump (hs : s.Straight) (ht : t ∈ q.instr.targets) (hentry : t ∉ s.entries)
    (hn : b'.code.realAt? t = some n) (hin : n ∈ b.realBetween r.start r.stop)
    (htargets : b.code.realAt? t = some n → t ∈ targetsOf b.nodes) : Overlooked b b' r q := by
  obtain ⟨m, hm, hmeets⟩ := p.realAt?_before h h' hn
  obtain rfl := p.eq_of_meets h hquiet (h.mem_of_realAt? hm) hmeets hin
  rcases s.leads_in h hs (htargets hm) hm hin with hmem | ⟨a, hla, htrails⟩
  · exact absurd hmem hentry
  · obtain rfl : m = p.gate := Option.some.inj (hn.symm.trans (p.realAt?_gate h' hla htrails))
    rcases p.gate_eq with hmem | ⟨hfalls, -⟩
    · exact absurd hmem (p.not_mem_inserted hquiet hin)
    · exact .front ht (by rwa [s.entryLabels_eq h]) (mt (s.fallsInto_iff h).mp hfalls) hn hin

/-- A range that is bypassed can be reached only by a way that was overlooked. -/
theorem leaks_of_reaches (hs : s.Straight) (htarget : target ∉ s.entries)
    (hjump : ∀ m ∈ b.realBetween r.start r.stop, b.code.realAt? target = some m → target ∈ targetsOf b.nodes)
    (hn : b'.Reaches n) (hin : n ∈ b.realBetween r.start r.stop) : Leaks b b' r := by
  induction hn with
  | entry hn =>
    obtain ⟨m, hm, hmeets⟩ := p.entry_before hn
    obtain rfl := p.eq_of_meets h hquiet (mem_of_find?_eq_some hm) hmeets hin
    rcases p.entry_now hm with ⟨hpre, -⟩ | ⟨hgate, he⟩
    · exact absurd hpre (s.not_mem_pre h hin)
    · rw [he] at hn
      cases hn
      exact absurd hgate (p.not_mem_inserted hquiet hin)
  | @step q n hq hstep ih =>
    by_cases hout : q ∈ b.realBetween r.start r.stop
    · exact ih hout
    refine ⟨q, hout, hq, ?_⟩
    rcases Body.next_iff.mp hstep with ⟨hfall, hafter⟩ | ⟨t, ht, hn⟩ | ⟨_, hq', hcover, hn⟩
    · -- the jump in front of the range stands between the two
      exfalso
      rcases p.firstAfter_before hafter with hmem | ⟨x, m, rfl, hx, hmeets⟩
      · simp [p.instr_inserted hmem, Instruction.fallsThrough] at hfall
      · obtain rfl := p.eq_of_meets h hquiet hx.mem_right hmeets hin
        have hr : x.isReal = true := by simpa [p.isReal_now] using hq.isReal
        have hx' : x ∉ b.realBetween r.start r.stop := fun hx' => hout (by rwa [p.now_eq_self (hquiet x hx')])
        obtain ⟨htrails, -⟩ := s.trails_of_enters h hx hr hx' hin
        have hgate := p.gate_mem (fallsIn_of_trails htrails hr (by simpa [p.fallsThrough_now] using hfall))
        have hnext := p.firstAfter_iff.mpr (.inr (.inl ⟨x, htrails, rfl, rfl⟩))
        obtain rfl : m = p.gate := h'.firstAfter_unique hafter hnext
        exact p.not_mem_inserted hquiet hin hgate
    · obtain ⟨hentry, ht'⟩ := p.targets_before htarget (h'.mem_of_reaches hq) ht
      refine p.overlooked_of_jump h h' hquiet hs ht hentry hn hin fun hm => ?_
      rcases ht' with rfl | ht'
      · exact hjump n hin hm
      · exact ht'
    · exact .handler hq' hcover hn hin

/-- What could be reached still can, outside of the range, or else control goes on at the target, or a
way was overlooked. -/
theorem reaches_now_or_target (hs : s.Straight) (hr : b.ranges[index]? = some r) (hn : b.Reaches n) :
    (n ∉ b.realBetween r.start r.stop ∧ b'.Reaches (p.now n)) ∨
      (∃ m, b'.code.realAt? target = some m ∧ b'.Reaches m) ∨ Leaks b b' r := by
  have hinserted : ∀ y ∈ p.inserted, b'.Reaches y → ∃ m, b'.code.realAt? target = some m ∧ b'.Reaches m :=
    fun y hmem hy => h'.reaches_of_jump hy (by simp [p.instr_inserted hmem, Instruction.targets])
  induction hn with
  | entry hn =>
    rcases p.entry_now hn with ⟨hpre, he⟩ | ⟨hgate, he⟩
    · exact .inl ⟨fun hin => s.not_mem_pre h hin hpre, .entry he⟩
    · exact .inr (.inl (hinserted _ hgate (.entry he)))
  | @step q n hq hstep ih =>
    rcases ih with ⟨hout, hq'⟩ | hdone
    swap
    · exact .inr hdone
    have hout' : p.now q ∉ b.realBetween r.start r.stop := fun hin =>
      hout (p.eq_of_meets h hquiet (h.mem_of_reaches hq) (.inl rfl) hin ▸ hin)
    -- a way to a node is a way to what stands there now, which in the range is an overlooked one
    have hstand : ∀ k, p.Meets n k → b'.Next (p.now q) k →
        (k = n → n ∈ b.realBetween r.start r.stop → Overlooked b b' r (p.now q)) →
        (n ∉ b.realBetween r.start r.stop ∧ b'.Reaches (p.now n)) ∨
          (∃ m, b'.code.realAt? target = some m ∧ b'.Reaches m) ∨ Leaks b b' r := by
      rintro k (rfl | ⟨hmem, rfl⟩) hstep' hover
      · by_cases hin : n ∈ b.realBetween r.start r.stop
        · exact .inr (.inr ⟨_, hout', hq', hover (p.now_eq_self (hquiet n hin)) hin⟩)
        · exact .inl ⟨hin, .step hq' hstep'⟩
      · exact .inr (.inl (hinserted k hmem (.step hq' hstep')))
    rcases Body.next_iff.mp hstep with ⟨hfall, hafter⟩ | ⟨t, ht, hn⟩ | ⟨q₁, hq₁, hcover, hn⟩
    · obtain ⟨k, hk, hmeets⟩ := p.firstAfter_now hafter
      refine hstand k hmeets (Body.next_iff.mpr (.inl ⟨by rwa [p.fallsThrough_now], hk⟩)) ?_
      -- control that falls into the range meets the jump in front of it
      rintro rfl hin
      obtain ⟨htrails, -⟩ := s.trails_of_enters h hafter hq.isReal hout hin
      have hgate := p.gate_mem (fallsIn_of_trails htrails hq.isReal hfall)
      have hnext := p.firstAfter_iff.mpr (.inr (.inl ⟨q, htrails, rfl, rfl⟩))
      rw [← h'.firstAfter_unique hk hnext] at hgate
      exact absurd hgate (p.not_mem_inserted hquiet hin)
    · have ht' : sendTo s.entries target t ∈ (p.now q).instr.targets := by
        rw [p.targets_now]
        exact mem_map_of_mem ht
      unfold sendTo at ht'
      split at ht'
      · exact .inr (.inl (h'.reaches_of_jump hq' ht'))
      · rename_i hentry
        obtain ⟨k, hk, hmeets⟩ := p.realAt?_now h h' hn
        refine hstand k hmeets (.jump ht' hk) ?_
        rintro rfl hin
        exact p.overlooked_of_jump h h' hquiet hs ht' (by simpa using hentry) hk hin fun _ =>
          mem_targetsOf.mpr ⟨q, h.mem_of_reaches hq, ht⟩
    · have hq₁' : q₁ ∈ b'.ranges := by
        obtain ⟨j, hj⟩ := getElem?_of_mem hq₁
        rw [p.ranges_eq]
        refine mem_eraseIdx_iff_getElem?.mpr ⟨j, ?_, hj⟩
        rintro rfl
        obtain rfl : r = q₁ := Option.some.inj (hr.symm.trans hj)
        exact hout hcover
      obtain ⟨hstart, hstop, -⟩ := h.range_bound hq₁
      have hcover' := p.now_mem_realBetween h h' hstart hstop hcover
      obtain ⟨k, hk, hmeets⟩ := p.realAt?_now h h' hn
      refine hstand k hmeets (.thrown hq₁' hcover' hk) ?_
      rintro rfl hin
      exact .handler hq₁' hcover' hk hin

end Bypassed

/-! ### Undoing a redirection -/

/-- `m` is where control goes on in `b'` when the handler in `b` has dropped its exception: where a jump
behind that instruction goes, or else what stands there. -/
def GoesOn (b b' : Body) (handler : Label) (m : Node) : Prop :=
  ∃ discard next, b.code.realAt? handler = some discard ∧ FirstAfter b.nodes discard next ∧
    ((∃ t, next.instr = .jump t ∧ b'.code.realAt? t = some m) ∨
      (∀ t, next.instr ≠ .jump t) ∧ m ∈ b'.nodes ∧ m.id = next.id)

/-- A new label outside of the range leaves the range as it is. -/
theorem Site.labelled (h : b.WellFormed) (s : Site b r) {front back : List Node} {next : Node} {l : Label}
    (hns : b.nodes = front ++ next :: back) (hns' : b'.nodes = front ++ x :: next :: back) (hx : x.instr = .label l)
    (hr : next.isReal = true) (hout : next ∉ b.realBetween r.start r.stop) :
    ∃ s' : Site b' r, s'.start = s.start ∧ s'.lead = s.lead ∧ s'.tail = s.tail ∧
      (FallsIn s'.pre ↔ FallsIn s.pre) := by
  have hxr : x.isReal = false := by simp [Node.isReal, hx, Instruction.isReal]
  have hmem : next ∈ s.pre ∨ next ∈ s.post := by
    have hnext : next ∈ b.nodes := by simp [hns]
    rw [s.realBetween_eq h] at hout
    rw [s.nodes_eq] at hnext
    simp only [mem_append, mem_cons] at hnext
    rcases hnext with hmem | rfl | hmem | rfl | hmem | rfl | hmem
    · exact .inl hmem
    · simp [s.start_not_real] at hr
    · simp [s.lead_eq next hmem] at hr
    · simp at hout
    · simp [hmem, hr] at hout
    · simp [Node.isReal, s.stop_eq, Instruction.isReal] at hr
    · exact .inr hmem
  rcases hmem with hmem | hmem
  · obtain ⟨u, v, hpre⟩ := append_of_mem hmem
    have hns₂ : b.nodes = u ++ next :: (v ++ s.rest) := by rw [s.nodes_eq_rest, hpre]; simp
    obtain ⟨rfl, rfl⟩ := h.eq_of_append_cons hns hns₂
    refine ⟨⟨front ++ x :: next :: v, s.start, s.lead, s.first, s.tail, s.stop, s.post, ?_, s.start_eq, s.stop_eq,
      s.lead_eq, s.first_real⟩, rfl, rfl, rfl, ?_⟩
    · rw [hns', rest]
      simp
    · simp [FallsIn, hpre, hxr]
  · obtain ⟨u, v, hpost⟩ := append_of_mem hmem
    have hns₂ : b.nodes = (s.pre ++ s.start :: (s.lead ++ s.first :: (s.tail ++ s.stop :: u))) ++ next :: v := by
      rw [s.nodes_eq, hpost]
      simp
    obtain ⟨rfl, rfl⟩ := h.eq_of_append_cons hns hns₂
    refine ⟨⟨s.pre, s.start, s.lead, s.first, s.tail, s.stop, u ++ x :: next :: back, ?_, s.start_eq, s.stop_eq,
      s.lead_eq, s.first_real⟩, rfl, rfl, rfl, Iff.rfl⟩
    rw [hns']
    simp

/-- What undoing a redirection does: where control goes on after the handler's `discard` gets a label if
it has none, and the range is bypassed to there. -/
structure Restored (b : Body) (index : Nat) (r : Range) (b' : Body) where
  /-- The body with a label for where control goes on. -/
  middle : Body
  labelled : b.Labelled middle
  wellFormed : middle.WellFormed
  site : Site middle r
  target : Label
  bypassed : Bypassed site target index b'
  straight : site.Straight
  entryLabels_eq : entryLabels middle r.start = entryLabels b r.start
  fallsInto_iff : FallsInto middle r.start ↔ FallsInto b r.start
  sequence : isThrowSequence b index r (b.realBetween r.start r.stop) = true
  discard : Node
  discard_eq : discard? b r.handler = .ok (some discard)
  next : Node
  next_eq : FirstAfter b.nodes discard next
  target_eq : next.instr = .jump target ∨ (∀ t, next.instr ≠ .jump t) ∧ middle.code.realAt? target = some next ∧
    next ∉ b.realBetween r.start r.stop
  target_outside : target ∉ site.entries

/-- A label of the range's start has a position inside the range. -/
theorem Site.position_of_entry (h : b.WellFormed) (s : Site b r) {start stop p : Nat}
    (hstart : (FlowIndex.of b).labelPosition? r.start = some start)
    (hstop : (FlowIndex.of b).labelPosition? r.stop = some stop)
    (ht : (FlowIndex.of b).labelPosition? t = some p) (hmem : t ∈ s.entries) : start ≤ p ∧ p < stop := by
  have hposition : ∀ {pre post : List Node} {a : Node} {l : Label} {q : Nat}, b.nodes = pre ++ a :: post →
      a.instr = .label l → (FlowIndex.of b).labelPosition? l = some q → q = pre.length := by
    intro pre post a l q hns ha hq
    refine Option.some.inj (hq.symm.trans (h.labelPosition_eq_some.mpr ⟨a, ?_, ha⟩))
    rw [hns]
    simp
  obtain ⟨u, x, v, huv, hlx⟩ := exists_of_mem_labelsOf hmem
  have hnsx : b.nodes = (s.pre ++ u) ++ x :: (v ++ s.first :: (s.tail ++ s.stop :: s.post)) := by
    rw [s.nodes_eq, ← cons_append, huv]
    simp
  have hnse : b.nodes = (s.pre ++ (u ++ x :: v) ++ s.first :: s.tail) ++ s.stop :: s.post := by
    rw [hnsx]
    simp
  rw [hposition s.nodes_eq s.start_eq hstart, hposition hnsx hlx ht, hposition hnse s.stop_eq hstop]
  simp only [length_append, length_cons]
  omega

theorem exists_restored (h : b.WellFormed) (hr : b.ranges[index]? = some r)
    (hrestore : restore? b index = .ok (some b')) : Nonempty (Restored b index r b') := by
  obtain ⟨r', _, target, code, hfound, hlabel, rfl⟩ := restore?_eq_some hrestore
  obtain ⟨_, _, discard, _, _, hr', hthrow, hfirst, hlast, hinside, hdiscard, hstart, hstop, hc⟩ :=
    redirection?_eq_some hfound
  obtain rfl : r = r' := Option.some.inj (hr.symm.trans hr')
  have hd : discard ∈ b.nodes := h.mem_of_realAt? (discard?_eq_some hdiscard).1
  obtain ⟨hmid, hlands, -⟩ := h.continuation hd hc hlabel
  have hne : b.realBetween r.start r.stop ≠ [] := by
    intro hnil
    simp [hnil, isThrowSequence, alwaysThrows] at hthrow
  obtain ⟨s⟩ := exists_site h hne
  have hs := s.straight_of_not_jumpsInside h hfirst hlast hinside
  obtain ⟨pre, mid, next, post, hns, hgap, hnr, hgo⟩ := continuation?_eq_some h hd hc hlabel
  have hnext : FirstAfter b.nodes discard next := by
    refine ⟨pre, mid ++ next :: post, hns, ?_⟩
    rw [find?_append, find?_eq_none.mpr (by simpa using hgap)]
    simp [hnr]
  rcases hgo with ⟨hjump, rfl, p, hp, hout⟩ | ⟨hno, htarget, hcode, p, hp, hout⟩
  · have hentry : target ∉ s.entries := by
      intro hmem
      have := s.position_of_entry h hstart hstop hp hmem
      simp [this] at hout
    obtain ⟨hby⟩ := exists_bypassed h s hlands index
    exact ⟨⟨b, .same, h, s, target, hby, hs, rfl, Iff.rfl, hthrow, discard, hdiscard, next, hnext, .inl hjump, hentry⟩⟩
  · have hnsn : b.nodes = (pre ++ discard :: mid) ++ next :: post := by simp [hns]
    have hns' : ({ b with code } : Body).nodes = (pre ++ discard :: mid) ++
        ⟨b.code.nextId, some (.label target)⟩ :: next :: post := by
      rw [hcode]
      exact h.nodes_insertBefore hnsn _
    have hfresh : target ∉ labelsOf b.nodes := fun hmem =>
      absurd (h.sound.labels_lt _ hmem) (by rw [htarget]; exact lt_irrefl _)
    have hnext' : next ∉ b.realBetween r.start r.stop := by
      intro hmem
      rw [h.position?_eq hnsn] at hp
      obtain rfl := Option.some.inj hp
      have hat : b.nodes[(pre ++ discard :: mid).length]? = some next := by
        rw [hnsn]
        simp
      obtain ⟨hge, hlt⟩ := (h.covers_iff_positions hstart hstop hat hnr).mp hmem
      rw [decide_eq_true hge, decide_eq_true hlt] at hout
      cases hout
    have hl : b.Labelled { b with code } := .label hnsn hns' rfl hfresh rfl
    obtain ⟨s', hs₁, hs₂, hs₃, hfalls⟩ := s.labelled h hnsn hns' rfl hnr hnext'
    have hentries : s'.entries = s.entries := by simp [Site.entries, hs₁, hs₂]
    obtain ⟨hby⟩ := exists_bypassed hmid s' hlands index
    refine ⟨⟨_, hl, hmid, s', target, hby, ?_, ?_, ?_, hthrow, discard, hdiscard, next, hnext,
      .inr ⟨hno, ?_, hnext'⟩, ?_⟩⟩
    · intro front x back t htail hx ht
      rw [hl.targetsOf_eq] at ht
      exact hs front x back t (hs₃ ▸ htail) hx ht
    · rw [s'.entryLabels_eq hmid, s.entryLabels_eq h, hentries]
    · rw [s'.fallsInto_iff hmid, s.fallsInto_iff h, hfalls]
    · exact hmid.realAt?_eq_some.mpr ⟨_, rfl, _, _, hns', by simp [hnr]⟩
    · rw [hentries]
      intro hmem
      obtain ⟨x, hx, hlx⟩ := mem_labelsOf.mp hmem
      refine hfresh (mem_labelsOf.mpr ⟨x, ?_, hlx⟩)
      rw [s.nodes_eq]
      rcases mem_cons.mp hx with rfl | hx
      · simp
      · simp [hx]

namespace Restored

variable {b b' : Body} {index : Nat} {r : Range} (w : Restored b index r b') (h : b.WellFormed)
  (h' : b'.WellFormed) (hr : b.ranges[index]? = some r)

include w h hr

theorem realBetween_eq : w.middle.realBetween r.start r.stop = b.realBetween r.start r.stop := by
  obtain ⟨hstart, hstop, -⟩ := h.range_bound (mem_of_getElem? hr)
  exact w.labelled.realBetween_eq h w.wellFormed hstart hstop

omit h hr in
theorem throws : alwaysThrows (b.realBetween r.start r.stop) = true := by
  have hsequence := w.sequence
  simp only [isThrowSequence, Bool.and_eq_true] at hsequence
  exact hsequence.1.1.1.2

theorem quiet : ∀ n ∈ w.middle.realBetween r.start r.stop, n.instr.targets = [] := by
  rw [w.realBetween_eq h hr]
  exact targets_of_alwaysThrows w.throws

/-- The new label is no way into the range. -/
theorem leaks_before (hleaks : Leaks w.middle b' r) : Leaks b b' r := by
  have hbetween := w.realBetween_eq h hr
  obtain ⟨n, hout, hn, hover⟩ := hleaks
  refine ⟨n, hbetween ▸ hout, hn, ?_⟩
  cases hover with
  | handler hq hcover hm hin => exact .handler hq hcover hm (hbetween ▸ hin)
  | front ht hentry hfalls hm hin =>
    rw [w.entryLabels_eq] at hentry
    exact .front ht hentry (mt w.fallsInto_iff.mpr hfalls) hm (hbetween ▸ hin)

include h'

theorem leaks_of_reaches (hn : n ∈ b.realBetween r.start r.stop) (hreach : b'.Reaches n) : Leaks b b' r := by
  have hbetween := w.realBetween_eq h hr
  refine w.leaks_before h hr (w.bypassed.leaks_of_reaches w.wellFormed h' (w.quiet h hr) w.straight w.target_outside
    ?_ hreach (hbetween ▸ hn))
  intro m hm hat
  rcases w.target_eq with hjump | ⟨-, hat', hout⟩
  · rw [w.labelled.targetsOf_eq]
    exact mem_targetsOf.mpr ⟨w.next, w.next_eq.mem_right, by simp [hjump, Instruction.targets]⟩
  · obtain rfl := Option.some.inj (hat.symm.trans hat')
    exact absurd (hbetween ▸ hm) hout

/-- The target is where the handler goes on. -/
theorem goesOn (hm : b'.code.realAt? w.target = some m) : GoesOn b b' r.handler m := by
  refine ⟨w.discard, w.next, (discard?_eq_some w.discard_eq).1, w.next_eq, ?_⟩
  rcases w.target_eq with hjump | ⟨hnojump, hat, hout⟩
  · exact .inl ⟨_, hjump, hm⟩
  · obtain ⟨k, hk, hmeets⟩ := w.bypassed.realAt?_before w.wellFormed h' hm
    obtain rfl := Option.some.inj (hat.symm.trans hk)
    rcases hmeets with rfl | ⟨-, hfirst⟩
    · exact .inr ⟨hnojump, h'.mem_of_realAt? hm, rfl⟩
    · exact absurd (w.realBetween_eq h hr ▸ hfirst ▸ w.site.first_mem w.wellFormed) hout

/-- Control that came to the range goes on where the handler did, or by a way that was overlooked. -/
theorem reaches_target_or_leaks (hn : n ∈ b.realBetween r.start r.stop) (hreach : b.Reaches n) :
    (∃ m, GoesOn b b' r.handler m ∧ b'.Reaches m) ∨ Leaks b b' r := by
  have hmid := w.labelled.reaches h w.wellFormed hreach
  rcases w.bypassed.reaches_now_or_target w.wellFormed h' (w.quiet h hr) w.straight (w.labelled.ranges_eq ▸ hr) hmid
    with ⟨hout, -⟩ | ⟨m, hm, hmr⟩ | hleak
  · exact absurd (w.realBetween_eq h hr ▸ hn) hout
  · exact .inl ⟨m, w.goesOn h h' hr hm, hmr⟩
  · exact .inr (w.leaks_before h hr hleak)

end Restored

/-- Once a redirection was undone and no way was overlooked, its throwing sequence cannot be reached, and if
it could be before, control goes on where its handler did. An overlooked way leaves it reachable. -/
theorem restore_redirects {b b' : Body} {index : Nat} {r : Range} (h : b.WellFormed) (hr : b.ranges[index]? = some r)
    (hrestore : restore? b index = .ok (some b')) :
    (¬Leaks b b' r →
      (∀ n ∈ b.realBetween r.start r.stop, n ∉ (FlowGraph.of b').reachable) ∧
        ((∃ n ∈ b.realBetween r.start r.stop, n ∈ (FlowGraph.of b).reachable) →
          ∃ m, GoesOn b b' r.handler m ∧ m ∈ (FlowGraph.of b').reachable)) ∧
      (Leaks b b' r → ∃ n ∈ b.realBetween r.start r.stop, n ∈ (FlowGraph.of b').reachable) := by
  obtain ⟨w⟩ := exists_restored h hr hrestore
  have h' := h.restore hrestore
  have hreal : ∀ n ∈ b.realBetween r.start r.stop, n.isReal = true := fun n hn => (h.mem_realBetween.mp hn).1
  have hreached : ∀ m, b'.Reaches m → m ∈ (FlowGraph.of b').reachable := fun m hm =>
    (h'.orderly.mem_reachable hm.isReal).mpr ⟨h'.mem_of_reaches hm, hm⟩
  refine ⟨fun hno => ⟨?_, ?_⟩, ?_⟩
  · intro n hn hreach
    exact hno (w.leaks_of_reaches h h' hr hn ((h'.orderly.mem_reachable (hreal n hn)).mp hreach).2)
  · rintro ⟨n, hn, hreach⟩
    obtain ⟨-, hreach⟩ := (h.orderly.mem_reachable (hreal n hn)).mp hreach
    rcases w.reaches_target_or_leaks h h' hr hn hreach with ⟨m, hgo, hm⟩ | hleaks
    · exact ⟨m, hgo, hreached m hm⟩
    · exact absurd hleaks hno
  · rintro ⟨n, -, hn, hover⟩
    cases hover with
    | @handler q m hq hcover hm hin => exact ⟨m, hin, hreached m (.step hn (.thrown hq hcover hm))⟩
    | @front t m ht _ _ hm hin => exact ⟨m, hin, hreached m (.step hn (.jump ht hm))⟩

/-- Throws an exception only to get to its last instruction. -/
def detourBody : Body where
  maxStack := 2
  maxLocals := 0
  code := Listing.ofInstrs
    [.label 0, .typed .new "E", .stack .dup, .invoke .special ⟨"E", "<init>", "()V"⟩ false, .raise, .label 1,
     .label 2, .stack .pop, .jump 3, .label 3, .leave none]
  ranges := [⟨0, 1, 2, some "E"⟩]

theorem detourBody_wellFormed : detourBody.WellFormed := Body.wellFormed_ofInstrs rfl (by decide) (by decide)

/-- The exception of a detour is not thrown any more, and control comes to where it went on. -/
theorem detourBody_restore_redirects : detourBody.WellFormed ∧
    ∃ b', restore? detourBody 0 = .ok (some b') ∧ ¬Leaks detourBody b' ⟨0, 1, 2, some "E"⟩ ∧
      (∀ n ∈ detourBody.realBetween 0 1, n ∉ (FlowGraph.of b').reachable) ∧
      ∃ m, GoesOn detourBody b' 2 m ∧ m ∈ (FlowGraph.of b').reachable := by
  have hrange : detourBody.ranges[0]? = some ⟨0, 1, 2, some "E"⟩ := rfl
  have hrestore : restore? detourBody 0 = .ok (some _) := rfl
  obtain ⟨hgood, hleaks⟩ := restore_redirects detourBody_wellFormed hrange hrestore
  have hno := mt hleaks (by decide)
  exact ⟨detourBody_wellFormed, _, hrestore, hno, (hgood hno).1, (hgood hno).2 (by decide)⟩

/-- Calls a method, and what that throws is caught by throwing another exception, which is dropped. -/
def chainedBody : Body where
  maxStack := 3
  maxLocals := 0
  code := Listing.ofInstrs
    [.label 5, .invoke .static ⟨"A", "f", "()V"⟩ false, .label 6, .leave none,
     .label 0, .typed .new "E", .stack .dup, .invoke .special ⟨"E", "<init>", "()V"⟩ false, .raise, .label 1,
     .label 2, .stack .pop, .jump 3, .label 3, .leave none]
  ranges := [⟨5, 6, 0, none⟩, ⟨0, 1, 2, some "E"⟩]

/-- A throwing sequence that is a handler is still there once its range is undone, and control does not
come to where the sequence went on. -/
theorem chainedBody_restore : chainedBody.WellFormed ∧
    ∃ b', restore? chainedBody 1 = .ok (some b') ∧
      (∃ n ∈ chainedBody.realBetween 0 1, n ∈ (FlowGraph.of chainedBody).reachable) ∧
      (∃ n ∈ chainedBody.realBetween 0 1, n ∈ (FlowGraph.of b').reachable) ∧
      ∃ m, b'.code.realAt? 3 = some m ∧ m ∉ (FlowGraph.of b').reachable := by
  have hwf : chainedBody.WellFormed := Body.wellFormed_ofInstrs rfl (by decide) (by decide)
  exact ⟨hwf, _, rfl, by decide, by decide, _, rfl, by decide⟩

end ExceptionFlow

end Untangle
