import Untangle.Proofs.Code.DeadCode
import Untangle.Proofs.Code.Succession
import Untangle.Proofs.Results
import Untangle.Simplification.ExceptionFlow

/-!
# Undoing exceptions that only move control

What is known of a range once it was undone, and that bodies stay well-formed: jumps are sent only where
an instruction stands, the jump in front of an undone range does not fall through, and a throw becomes a
jump to a handler that has an instruction.
-/

namespace Untangle

open List Listing

variable {b' b : Body} {handler target : Label} {e : Error} {index steps changes : Nat} {discard : Node}
  {way : Label ⊕ Nat} {code : Listing} {start : Label} {pre post : List Node} {a : Node} {slot : UInt16}
  {is : List Instr} {inside : Nat → Bool} {P : Body → Prop}

namespace ExceptionFlow

variable {undo? : Body → Nat → Except Error (Option Body)}

/-! ### What undoing takes -/

/-- A redirection is a sequence that nothing jumps into and that throws what its handler drops, outside of the
sequence. -/
theorem redirection?_eq_some {r : Range} (h : redirection? b index = .ok (some (r, way))) :
    ∃ first last discard start stop, b.ranges[index]? = some r ∧
      isThrowSequence b index r (b.realBetween r.start r.stop) = true ∧
      ((b.realBetween r.start r.stop).head?.bind fun n => (FlowIndex.of b).position? n.id) = some first ∧
      ((b.realBetween r.start r.stop).getLast?.bind fun n => (FlowIndex.of b).position? n.id) = some last ∧
      ¬jumpsInside (FlowIndex.of b) first last = true ∧ discard? b r.handler = .ok (some discard) ∧
      (FlowIndex.of b).labelPosition? r.start = some start ∧
      (FlowIndex.of b).labelPosition? r.stop = some stop ∧
      continuation? b (FlowIndex.of b) (fun p => start ≤ p && p < stop) discard = some way := by
  unfold redirection? at h
  simp only [bind, Except.bind] at h
  split at h
  case h_2 => cases h
  rename_i r hr
  split at h
  case isFalse => cases h
  rename_i hthrows
  split at h
  case h_2 => cases h
  rename_i first hfirst
  split at h
  case h_2 => cases h
  rename_i last hlast
  split at h
  case isTrue => cases h
  rename_i hinside
  split at h
  case h_1 => cases h
  rename_i hdiscard
  split at h
  case h_2 => cases h
  rename_i discard
  split at h
  case h_2 => cases h
  rename_i start stop hpositions
  split at h
  case isTrue => cases h
  obtain ⟨way, hway, heq⟩ := Option.map_eq_some_iff.mp (Except.ok.inj h)
  cases heq
  obtain ⟨hstart, hstop⟩ := Prod.mk.inj hpositions
  exact ⟨first, last, discard, start, stop, hr, hthrows, hfirst, hlast, hinside, hdiscard, hstart, hstop, hway⟩

theorem restore?_eq_some (h : restore? b index = .ok (some b')) :
    ∃ r way target code, redirection? b index = .ok (some (r, way)) ∧ labelOf b.code way = .ok (target, code) ∧
      b' = { b with code := bypass code (entryLabels { b with code } r.start) r.start target }.removeRange index := by
  unfold restore? at h
  simp only [bind, Except.bind] at h
  split at h
  case h_1 => cases h
  rename_i hfound
  split at h
  case h_2 => cases h
  rename_i r way
  split at h
  case h_1 => cases h
  rename_i named hnamed
  exact ⟨r, way, named.1, named.2, hfound, hnamed, (Option.some.inj (Except.ok.inj h)).symm⟩

/-- A handler that drops its exception has an instruction that does so: it pops it, or stores it away. -/
theorem discard?_eq_some (h : discard? b handler = .ok (some discard)) :
    b.code.realAt? handler = some discard ∧
      (discard.instr = .stack .pop ∨ ∃ slot, discard.instr = .store .ref slot) := by
  unfold discard? at h
  simp only [bind, Except.bind] at h
  split at h
  case h_1 => cases h
  rename_i n hn
  split at h
  · rename_i hpop
    cases h
    exact ⟨hn, .inl (Node.instr_of_content hpop)⟩
  · rename_i slot hstore
    split at h
    case h_1 => cases h
    split at h
    · cases h
    · cases h
      exact ⟨hn, .inr ⟨slot, Node.instr_of_content hstore⟩⟩
  · cases h

theorem labelOf_eq_ok {code' : Listing} :
    labelOf code way = .ok (target, code') ↔ way = .inl target ∧ code' = code ∨
      ∃ id, way = .inr id ∧ code.nextLabel < 4294967295 ∧ target = code.nextLabel ∧
        code' = (code.insertBefore id (.label target)).2 := by
  cases way with
  | inl l => simp [labelOf, pure, Except.pure, eq_comm]
  | inr id =>
    by_cases hleft : code.nextLabel < 4294967295
    · simp [labelOf, newLabel, hleft, bind, Except.bind, pure, Except.pure, insertBefore_given, eq_comm]
      rintro rfl
      rfl
    · simp [labelOf, newLabel, hleft]

/-- The instruction after the one that drops an exception, and the label of where control goes on: the
target of a jump there, or else a new label in front of it. -/
theorem continuation?_eq_some (hb : b.WellFormed) (hd : discard ∈ b.nodes)
    (h : continuation? b (FlowIndex.of b) inside discard = some way) (hl : labelOf b.code way = .ok (target, code)) :
    ∃ pre mid next post, b.nodes = pre ++ discard :: (mid ++ next :: post) ∧ (∀ n ∈ mid, n.isReal = false) ∧
      next.isReal = true ∧
      ((next.instr = .jump target ∧ code = b.code ∧
          ∃ p, (FlowIndex.of b).labelPosition? target = some p ∧ inside p = false) ∨
        ((∀ t, next.instr ≠ .jump t) ∧ target = b.code.nextLabel ∧
          code = (b.code.insertBefore next.id (.label target)).2 ∧
          ∃ p, (FlowIndex.of b).position? next.id = some p ∧ inside p = false)) := by
  obtain ⟨pre, _, hns⟩ := append_of_mem hd
  unfold continuation? at h
  simp only [Option.bind_eq_bind, Option.bind_eq_some_iff] at h
  obtain ⟨_, hid, i, hi, hgo⟩ := h
  rw [nextReal?, hb.livePlace?_eq hns, Option.map_eq_some_iff] at hid
  obtain ⟨next, hfind, rfl⟩ := hid
  obtain ⟨hr, mid, post, rfl, hmid⟩ := find?_eq_some_iff_append.mp hfind
  rw [hb.get?_eq (by rw [hns]; simp)] at hi
  cases hi
  refine ⟨pre, mid, next, post, hns, by simpa using hmid, hr, ?_⟩
  split at hgo
  · rename_i t ht
    obtain ⟨p, hp, hgo⟩ := Option.bind_eq_some_iff.mp hgo
    split at hgo
    case isTrue => cases hgo
    rename_i hin
    cases hgo
    obtain ⟨⟨⟩, rfl⟩ | ⟨_, ⟨⟩, -⟩ := labelOf_eq_ok.mp hl
    exact .inl ⟨ht, rfl, p, hp, by simpa using hin⟩
  · rename_i hno
    obtain ⟨p, hp, hgo⟩ := Option.bind_eq_some_iff.mp hgo
    split at hgo
    case isTrue => cases hgo
    rename_i hin
    cases hgo
    obtain ⟨⟨⟩, -⟩ | ⟨_, ⟨⟩, -, htarget, hcode⟩ := labelOf_eq_ok.mp hl
    exact .inr ⟨hno, htarget, hcode, p, hp, by simpa using hin⟩

/-- A range without effect only goes, or it is short and always throws what its handler catches, and its
throw becomes a jump to that handler, which does not throw again. -/
theorem dropPure?_eq_some (hd : dropPure? b index = .ok (some b')) :
    b' = b.removeRange index ∨
      ∃ (r : Range) (last : Node), b.ranges[index]? = some r ∧
        (b.realBetween r.start r.stop).length ≤ shortRange ∧ alwaysThrows (b.realBetween r.start r.stop) = true ∧
        catches r (b.realBetween r.start r.stop) = true ∧ (b.realBetween r.start r.stop).getLast? = some last ∧
        rethrows b r.handler = false ∧
        b' = { b with code := (b.code.replace last.id (.jump r.handler)).2 }.removeRange index := by
  unfold dropPure? at hd
  simp only [bind, Except.bind] at hd
  split at hd
  case h_2 => cases hd
  rename_i r hr
  split at hd
  · cases hd
    exact .inl rfl
  split at hd
  case isTrue => cases hd
  rename_i hshort
  split at hd
  · rename_i hthrows
    split at hd
    case h_2 => cases hd
    rename_i last hlast
    split at hd
    case isFalse => cases hd
    rename_i hgood
    cases hd
    simp only [Bool.and_eq_true, Bool.not_eq_true'] at hgood
    exact .inr ⟨r, last, hr, Nat.le_of_not_lt hshort, hthrows, hgood.1.1, hlast, hgood.2, rfl⟩
  · split at hd
    case h_1 => cases hd
    split at hd
    · cases hd
      exact .inl rfl
    · cases hd

/-- The loop over the ranges of a body comes to a range, with the body as it is by then. -/
inductive Tries (undo? : Body → Nat → Except Error (Option Body)) : Nat → Nat → Body → Nat → Body → Prop
  | here (steps index : Nat) (b : Body) : Tries undo? (steps + 1) index b index b
  | undone {steps index i : Nat} {b b' c : Body} (h : undo? b index = .ok (some b'))
      (rest : Tries undo? steps index b' i c) : Tries undo? (steps + 1) index b i c
  | kept {steps index i : Nat} {b c : Body} (h : undo? b index = .ok none)
      (rest : Tries undo? steps (index + 1) b i c) : Tries undo? (steps + 1) index b i c

/-- What undoing a range that the loop comes to keeps holds after all of them were looked at. -/
theorem each_keeps (hundo : ∀ i c c', Tries undo? steps index b i c → P c → undo? c i = .ok (some c') → P c')
    (h : P b) {changes' : Nat} (he : each undo? steps index changes b = .ok (changes', b')) : P b' := by
  induction steps generalizing b index changes with
  | zero =>
    cases he
    exact h
  | succ steps ih =>
    obtain ⟨_ | d, hu, he⟩ := bind_eq_ok.mp he
    · exact ih (fun i c c' ht => hundo i c c' (.kept hu ht)) h he
    · exact ih (fun i c c' ht => hundo i c c' (.undone hu ht)) (hundo index b d (.here ..) h hu) he

theorem Tries.keeps (hundo : ∀ b b' index, P b → undo? b index = .ok (some b') → P b') {i : Nat} {c : Body}
    (ht : Tries undo? steps index b i c) (h : P b) : P c := by
  induction ht with
  | here => exact h
  | undone hu _ ih => exact ih (hundo _ _ _ h hu)
  | kept _ _ ih => exact ih h

/-- The loop fails where undoing a range fails that it comes to. -/
theorem each_eq_error :
    each undo? steps index changes b = .error e ↔ ∃ i c, Tries undo? steps index b i c ∧ undo? c i = .error e := by
  induction steps generalizing b index changes with
  | zero => exact ⟨fun h => (by cases h), fun ⟨i, c, ht, _⟩ => (by cases ht)⟩
  | succ steps ih =>
    rw [each, bind_eq_error]
    constructor
    · rintro (hu | ⟨_ | _, hu, hrest⟩)
      · exact ⟨index, b, .here .., hu⟩
      · obtain ⟨i, c, ht, hc⟩ := ih.mp hrest
        exact ⟨i, c, .kept hu ht, hc⟩
      · obtain ⟨i, c, ht, hc⟩ := ih.mp hrest
        exact ⟨i, c, .undone hu ht, hc⟩
    · rintro ⟨i, c, ht, hc⟩
      cases ht with
      | here => exact .inl hc
      | undone hu rest => exact .inr ⟨_, hu, ih.mpr ⟨i, c, rest, hc⟩⟩
      | kept hu rest => exact .inr ⟨_, hu, ih.mpr ⟨i, c, rest, hc⟩⟩

/-- Every label goes to itself but those of `entries`, which go to `target`. -/
def sendTo (entries : List Label) (target : Label) (l : Label) : Label :=
  if entries.contains l then target else l

/-- Control falls into what stands behind some nodes. -/
def FallsIn (before : List Node) : Prop :=
  ∀ n, before.reverse.find? Node.isReal = some n → n.instr.fallsThrough = true

theorem fallsIn_map_retarget {f : Label → Label} {ns : List Node} :
    FallsIn (ns.map (Node.retarget f)) ↔ FallsIn ns := by
  unfold FallsIn
  rw [← map_reverse, find?_map_isReal (Node.isReal_retarget f)]
  cases ns.reverse.find? Node.isReal <;> simp

/-- Jumps are sent elsewhere, and if control falls into the range a jump is put in front of it. -/
theorem bypass_eq (entries : List Label) (target : Label)
    (h : { b with code := (b.code.redirect (sendTo entries target)).2 }.WellFormed)
    (hns : (b.code.redirect (sendTo entries target)).2.nodes = pre ++ a :: post) (ha : a.instr = .label start) :
    (FallsIn pre ∧ bypass b.code entries start target =
        ((b.code.redirect (sendTo entries target)).2.insertBefore a.id (.jump target)).2) ∨
      (¬FallsIn pre ∧ bypass b.code entries start target = (b.code.redirect (sendTo entries target)).2) := by
  have hp := h.labelPlace?_eq hns ha
  unfold bypass
  simp only
  change (b.code.redirect fun l => if entries.contains l then target else l).2.labelPlace? start = _ at hp
  rw [hp]
  simp only
  cases hfind : pre.reverse.find? Node.isReal with
  | none =>
    refine .inl ⟨fun n hn => ?_, rfl⟩
    rw [hfind] at hn
    cases hn
  | some n =>
    have hmem : n ∈ pre := mem_reverse.mp (mem_of_find?_eq_some hfind)
    have hc : n.content = some n.instr := Node.content_of_live (h.live (by rw [Body.nodes, hns]; simp [hmem]))
    simp only [hc, Option.any_some]
    by_cases hf : n.instr.fallsThrough = true
    · rw [if_pos hf]
      refine .inl ⟨fun m hm => ?_, rfl⟩
      rw [hfind] at hm
      cases hm
      exact hf
    · rw [if_neg hf]
      exact .inr ⟨fun hfalls => hf (hfalls n hfind), rfl⟩

end ExceptionFlow

namespace Body.WellFormed

open ExceptionFlow

variable (h : b.WellFormed)

include h

/-! ### Redirections -/

/-- Sending jumps to some labels elsewhere keeps a body well-formed. -/
theorem redirect_sendTo (ht : Lands b.nodes target) (entries : List Label) :
    { b with code := (b.code.redirect (sendTo entries target)).2 }.WellFormed := by
  have hgo : (b.redirect (sendTo entries target) false).2.WellFormed := by
    apply h.redirect
    · intro t hmem
      unfold sendTo
      split
      · exact ht
      · exact h.lands t hmem
    · intro r hr
      unfold sendTo
      split
      · exact ht.mem_labelsOf
      · exact (h.range_bound hr).2.2
  exact hgo

/-- Every way into a range is sent elsewhere: jumps go there, and control that falls into the range meets a jump. -/
theorem bypass (ht : Lands b.nodes target) (hns : b.nodes = pre ++ a :: post) (ha : a.instr = .label start)
    (entries : List Label) :
    { b with code := bypass b.code entries start target }.WellFormed ∧
      ∃ inserted, (bypass b.code entries start target).nodes =
          pre.map (Node.retarget (sendTo entries target)) ++
            (inserted ++ (a :: post).map (Node.retarget (sendTo entries target))) ∧
        ((FallsIn pre ∧ ∃ id, inserted = [⟨id, some (.jump target)⟩]) ∨ ¬FallsIn pre ∧ inserted = []) := by
  have hredirect := h.redirect_sendTo ht entries
  have hnodes : (b.code.redirect (sendTo entries target)).2.nodes =
      b.nodes.map (Node.retarget (sendTo entries target)) :=
    nodes_of_strands (redirect_strands h.intact _)
  have hns' := hnodes
  rw [hns, map_append] at hns'
  have ha' : (a.retarget (sendTo entries target)).instr = .label start := by simp [ha, Instruction.mapTargets]
  rcases bypass_eq entries target hredirect hns' ha' with ⟨hf, he⟩ | ⟨hf, he⟩
  · rw [he]
    refine ⟨hredirect.insertBefore hns' ?_ ?_ ?_ trivial trivial, _, hredirect.nodes_insertBefore hns' _,
      .inl ⟨fallsIn_map_retarget.mp hf, _, rfl⟩⟩
    · simp [Instruction.label?]
    · simp [Instruction.fallsThrough]
    · intro t hmem
      obtain rfl : t = target := by simpa [Instruction.targets] using hmem
      rw [nodes, hnodes]
      exact ht.map_retarget _
  · rw [he]
    exact ⟨hredirect, [], hns', .inr ⟨mt fallsIn_map_retarget.mpr hf, rfl⟩⟩

/-- Where control goes on can be named by a label, and nothing else comes in. -/
theorem continuation (hd : discard ∈ b.nodes) (hc : continuation? b (FlowIndex.of b) inside discard = some way)
    (hl : labelOf b.code way = .ok (target, code)) :
    { b with code }.WellFormed ∧ Lands code.nodes target ∧
      ∀ n ∈ code.nodes, n ∈ b.nodes ∨ n.instr = .label target := by
  obtain ⟨pre, mid, next, post, hns, -, hr, ⟨hjump, rfl, -⟩ | ⟨-, rfl, rfl, -⟩⟩ := continuation?_eq_some h hd hc hl
  · refine ⟨h, h.lands target (mem_targetsOf.mpr ⟨next, by rw [hns]; simp, ?_⟩), fun n => .inl⟩
    simp [hjump, Instruction.targets]
  · have hns' : b.nodes = (pre ++ discard :: mid) ++ next :: post := by
      rw [append_assoc]
      exact hns
    have hnodes := h.nodes_insertBefore hns' (.label b.code.nextLabel)
    refine ⟨h.insertBefore hns' ?_ ?_ ?_ trivial trivial, ?_, fun n hn => ?_⟩
    · intro l hl hmem
      obtain rfl : b.code.nextLabel = l := by simpa [Instruction.label?] using hl
      exact absurd (h.sound.labels_lt _ hmem) (Nat.lt_irrefl _)
    · simp [Instruction.isReal]
    · simp [Instruction.targets]
    · rw [hnodes]
      exact ⟨_, _, _, rfl, rfl, next, by simp, hr⟩
    · rw [hnodes, mem_append, mem_cons] at hn
      rw [hns', mem_append]
      rcases hn with hn | rfl | hn
      · exact .inl (.inl hn)
      · exact .inr rfl
      · exact .inl (.inr hn)

/-- Undoing a redirection keeps a body well-formed. -/
theorem restore (hr : restore? b index = .ok (some b')) : b'.WellFormed := by
  obtain ⟨r, _, _, _, hfound, hl, rfl⟩ := restore?_eq_some hr
  obtain ⟨_, _, discard, _, _, hrange, -, -, -, -, hdiscard, -, -, hc⟩ := redirection?_eq_some hfound
  have hd : discard ∈ b.nodes := Listing.mem_of_realAt? h.intact (discard?_eq_some hdiscard).1
  obtain ⟨hcode, hlands, -⟩ := h.continuation hd hc hl
  obtain ⟨_, a, _, hns, ha⟩ := exists_of_mem_labelsOf (hcode.range_bound (mem_of_getElem? hrange)).1
  exact (hcode.bypass hlands hns ha _).1.removeRange index

/-! ### Ranges without effect -/

/-- A handler that does not throw again has an instruction. -/
theorem lands_of_not_rethrows (hr : rethrows b handler = false) : Lands b.nodes handler := by
  have hl : handler ∈ labelsOf b.nodes := by
    by_contra hl
    rw [rethrows, h.fromLabel_eq_nil hl] at hr
    simp at hr
  obtain ⟨pre, a, post, hns, hla⟩ := exists_of_mem_labelsOf hl
  refine ⟨pre, a, post, hns, hla, ?_⟩
  by_contra hno
  have hnil : (a :: post).filter Node.isReal = [] := by
    rw [filter_cons_of_neg (by simp [Node.isReal, hla, Instruction.isReal]), filter_eq_nil_iff]
    exact fun n hn hr => hno ⟨n, hn, hr⟩
  simp [rethrows, h.fromLabel_eq hns hla, hnil] at hr

/-- Undoing a range without effect keeps a body well-formed. -/
theorem dropPure (hd : dropPure? b index = .ok (some b')) : b'.WellFormed := by
  rcases dropPure?_eq_some hd with rfl | ⟨r, last, -, -, -, -, hlast, hrethrows, rfl⟩
  · exact h.removeRange index
  · obtain ⟨hlr, a, c, -, -, hsub⟩ := h.mem_realBetween.mp (mem_of_getLast? hlast)
    obtain ⟨_, _, hns⟩ := append_of_mem (hsub.subset (show last ∈ [a, last, c] by simp))
    refine (h.replace (i := .jump r.handler) hns hlr rfl rfl ?_ trivial trivial).removeRange index
    intro t ht
    obtain rfl : t = r.handler := by simpa [Instruction.targets] using ht
    exact h.lands_of_not_rethrows hrethrows

/-! ### All ranges -/

/-- Undoing all detours of a body keeps it well-formed. -/
theorem restoreExceptionFlow (hr : b.restoreExceptionFlow = .ok (changes, b')) : b'.WellFormed := by
  unfold Body.restoreExceptionFlow at hr
  simp only [bind, Except.bind] at hr
  split at hr
  case h_1 => cases hr
  rename_i hrestored
  split at hr
  case h_1 => cases hr
  rename_i hdropped
  have hrw := each_keeps (fun _ _ _ _ (hc : WellFormed _) => hc.restore) h hrestored
  have hdw := each_keeps (fun _ _ _ _ (hc : WellFormed _) => hc.dropPure) hrw hdropped
  split at hr
  · cases hr
    exact hdw
  · cases hr
    exact hdw.removeDeadCode

end Body.WellFormed

/-! ### When undoing fails -/

namespace ExceptionFlow

/-- Reads a slot, by itself or as the second of two. -/
def ReadsSlot (slot : UInt16) : Instr → Prop
  | .load kind s => s = slot ∨ kind.slots = 2 ∧ s + 1 = slot
  | .increment s _ | .leaveSub s => s = slot
  | _ => False

/-- Looking for a read of a slot meets a read of the last slot as the first of two, before any read of
the slot itself. -/
def MeetsLastSlot (slot : UInt16) (is : List Instr) : Prop :=
  ∃ pre kind post, is = pre ++ .load kind 65535 :: post ∧ kind.slots = 2 ∧ slot ≠ 65535 ∧
    ∀ i ∈ pre, ¬ ReadsSlot slot i

theorem meetsLastSlot_cons {i : Instr} :
    MeetsLastSlot slot (i :: is) ↔ (∃ kind, i = .load kind 65535 ∧ kind.slots = 2 ∧ slot ≠ 65535) ∨
      ¬ ReadsSlot slot i ∧ MeetsLastSlot slot is := by
  constructor
  · rintro ⟨pre, kind, post, he, hk, hs, hpre⟩
    obtain ⟨rfl, he⟩ | ⟨pre, rfl, rfl⟩ := cons_eq_append_iff.mp he
    · cases he
      exact .inl ⟨kind, rfl, hk, hs⟩
    · obtain ⟨hi, hpre⟩ := forall_mem_cons.mp hpre
      exact .inr ⟨hi, pre, kind, post, rfl, hk, hs, hpre⟩
  · rintro (⟨kind, rfl, hk, hs⟩ | ⟨hi, pre, kind, post, rfl, hk, hs, hpre⟩)
    · exact ⟨[], kind, is, rfl, hk, hs, by simp⟩
    · exact ⟨i :: pre, kind, post, rfl, hk, hs, forall_mem_cons.mpr ⟨hi, hpre⟩⟩

theorem slotIsRead_eq_error : slotIsRead slot is = .error e ↔ e = .slotOverflow ∧ MeetsLastSlot slot is := by
  fun_induction slotIsRead slot is with
  | case1 => simp [MeetsLastSlot]
  | case11 i =>
    rw [meetsLastSlot_cons]
    cases i <;> simp_all [ReadsSlot]
  | _ =>
    rw [meetsLastSlot_cons]
    simp_all [ReadsSlot, eq_comm]

/-- The handler stores what it catches, and looking for a read of that slot fails. -/
def DiscardStumbles (b : Body) (handler : Label) : Prop :=
  ∃ n slot, b.code.realAt? handler = some n ∧ n.content = some (.store .ref slot) ∧
    MeetsLastSlot slot b.code.instrs

theorem discard?_eq_error : discard? b handler = .error e ↔ e = .slotOverflow ∧ DiscardStumbles b handler := by
  constructor
  · intro h
    unfold discard? at h
    simp only [bind, Except.bind] at h
    split at h
    case h_1 => cases h
    rename_i n hn
    split at h
    · cases h
    · rename_i slot hstore
      split at h
      · rename_i hread
        cases h
        obtain ⟨rfl, hmeets⟩ := slotIsRead_eq_error.mp hread
        exact ⟨rfl, n, slot, hn, hstore, hmeets⟩
      · cases h
    · cases h
  · rintro ⟨rfl, n, slot, hn, hstore, hmeets⟩
    simp only [discard?, hn, hstore, slotIsRead_eq_error.mpr ⟨rfl, hmeets⟩]
    rfl

/-- The range is a sequence that throws, with a handler that stumbles. -/
def RestoreStumbles (b : Body) (index : Nat) : Prop :=
  ∃ r first last, b.ranges[index]? = some r ∧
    isThrowSequence b index r (b.realBetween r.start r.stop) = true ∧
    ((b.realBetween r.start r.stop).head?.bind fun n => (FlowIndex.of b).position? n.id) = some first ∧
    ((b.realBetween r.start r.stop).getLast?.bind fun n => (FlowIndex.of b).position? n.id) = some last ∧
    jumpsInside (FlowIndex.of b) first last = false ∧ DiscardStumbles b r.handler

theorem redirection?_eq_error : redirection? b index = .error e ↔ e = .slotOverflow ∧ RestoreStumbles b index := by
  constructor
  · intro h
    unfold redirection? at h
    simp only [bind, Except.bind] at h
    split at h
    case h_2 => cases h
    rename_i r hr
    split at h
    case isFalse => cases h
    rename_i hthrow
    split at h
    case h_2 => cases h
    rename_i first hfirst
    split at h
    case h_2 => cases h
    rename_i last hlast
    split at h
    case isTrue => cases h
    rename_i hjumps
    split at h
    · rename_i hdiscard
      cases h
      obtain ⟨he, hstumbles⟩ := discard?_eq_error.mp hdiscard
      exact ⟨he, r, first, last, hr, hthrow, hfirst, hlast, by simpa using hjumps, hstumbles⟩
    · repeat' split at h
      all_goals cases h
  · rintro ⟨rfl, r, first, last, hr, hthrow, hfirst, hlast, hjumps, hstumbles⟩
    have hdiscard := discard?_eq_error.mpr ⟨rfl, hstumbles⟩
    simp only [redirection?, hr, hthrow, hfirst, hlast, hjumps, hdiscard]
    rfl

/-- The range is a redirection to an instruction that needs a label, and there is none. -/
def LacksLabel (b : Body) (index : Nat) : Prop :=
  4294967295 ≤ b.code.nextLabel ∧ ∃ r next, redirection? b index = .ok (some (r, .inr next))

theorem labelOf_eq_error :
    labelOf code way = .error e ↔ e = .labelOverflow ∧ 4294967295 ≤ code.nextLabel ∧ ∃ next, way = .inr next := by
  cases way with
  | inl l => simp [labelOf, pure, Except.pure]
  | inr =>
    by_cases hleft : code.nextLabel < 4294967295
    · simp [labelOf, newLabel, hleft, bind, Except.bind, pure, Except.pure]
    · simp [labelOf, newLabel, hleft, Nat.le_of_not_lt hleft, eq_comm]

theorem restore?_eq_error :
    restore? b index = .error e ↔
      e = .slotOverflow ∧ RestoreStumbles b index ∨ e = .labelOverflow ∧ LacksLabel b index := by
  rw [← redirection?_eq_error, restore?, bind_eq_error]
  refine or_congr_right ⟨?_, ?_⟩
  · rintro ⟨_ | ⟨r, _⟩, hfound, herror⟩
    · cases herror
    · rcases bind_eq_error.mp herror with hlabel | ⟨_, -, hok⟩
      · obtain ⟨he, hnone, next, rfl⟩ := labelOf_eq_error.mp hlabel
        exact ⟨he, hnone, r, next, hfound⟩
      · cases hok
  · rintro ⟨he, hnone, r, next, hfound⟩
    exact ⟨_, hfound, bind_eq_error.mpr (.inl (labelOf_eq_error.mpr ⟨he, hnone, next, rfl⟩))⟩

/-- The range is short, does something and need not throw, and its handler stumbles. -/
def DropStumbles (b : Body) (index : Nat) : Prop :=
  ∃ r, b.ranges[index]? = some r ∧
    (b.realBetween r.start r.stop).all (·.instr == .plain Opcode.nop) = false ∧
    (b.realBetween r.start r.stop).length ≤ shortRange ∧
    alwaysThrows (b.realBetween r.start r.stop) = false ∧ DiscardStumbles b r.handler

theorem dropPure?_eq_error : dropPure? b index = .error e ↔ e = .slotOverflow ∧ DropStumbles b index := by
  constructor
  · intro h
    unfold dropPure? at h
    simp only [bind, Except.bind] at h
    split at h
    case h_2 => cases h
    rename_i r hr
    split at h
    case isTrue => cases h
    rename_i hnops
    split at h
    case isTrue => cases h
    split at h
    · repeat' split at h
      all_goals cases h
    · rename_i hthrows
      split at h
      · rename_i hdiscard
        cases h
        obtain ⟨he, hstumbles⟩ := discard?_eq_error.mp hdiscard
        exact ⟨he, r, hr, by simpa using hnops, by omega, by simpa using hthrows, hstumbles⟩
      · split at h <;> cases h
  · rintro ⟨rfl, r, hr, hnops, hlength, hthrows, hstumbles⟩
    have hdiscard := discard?_eq_error.mpr ⟨rfl, hstumbles⟩
    simp only [dropPure?, hr, hnops, hthrows, hdiscard, Nat.not_lt.mpr hlength]
    rfl

end ExceptionFlow

open ExceptionFlow in
/-- Undoing the detours of a body comes to a range whose handler stumbles. -/
def Body.Stumbles (b : Body) : Prop :=
  (∃ i c, Tries restore? b.ranges.length 0 b i c ∧ RestoreStumbles c i) ∨
    ∃ restored b', each restore? b.ranges.length 0 0 b = .ok (restored, b') ∧
      ∃ i c, Tries dropPure? b'.ranges.length 0 b' i c ∧ DropStumbles c i

open ExceptionFlow in
/-- Undoing the detours of a body comes to a redirection that needs a label, and there is none. -/
def Body.LacksLabel (b : Body) : Prop :=
  ∃ i c, Tries restore? b.ranges.length 0 b i c ∧ ExceptionFlow.LacksLabel c i

open ExceptionFlow in
theorem Body.restoreExceptionFlow_eq_error :
    b.restoreExceptionFlow = .error e ↔ e = .slotOverflow ∧ b.Stumbles ∨ e = .labelOverflow ∧ b.LacksLabel := by
  rw [restoreExceptionFlow, bind_eq_error, each_eq_error]
  constructor
  · rintro (⟨i, c, ht, hc⟩ | ⟨⟨restored, b'⟩, hr, hrest⟩)
    · rcases restore?_eq_error.mp hc with ⟨rfl, hs⟩ | ⟨rfl, hs⟩
      · exact .inl ⟨rfl, .inl ⟨i, c, ht, hs⟩⟩
      · exact .inr ⟨rfl, i, c, ht, hs⟩
    · rcases bind_eq_error.mp hrest with hd | ⟨⟨_, d⟩, -, hok⟩
      · obtain ⟨i, c, ht, hc⟩ := each_eq_error.mp hd
        obtain ⟨rfl, hs⟩ := dropPure?_eq_error.mp hc
        exact .inl ⟨rfl, .inr ⟨restored, b', hr, i, c, ht, hs⟩⟩
      · dsimp only at hok
        split at hok <;> cases hok
  · rintro (⟨rfl, ⟨i, c, ht, hs⟩ | ⟨restored, b', hr, i, c, ht, hs⟩⟩ | ⟨rfl, i, c, ht, hs⟩)
    · exact .inl ⟨i, c, ht, restore?_eq_error.mpr (.inl ⟨rfl, hs⟩)⟩
    · refine .inr ⟨(restored, b'), hr, bind_eq_error.mpr (.inl ?_)⟩
      exact each_eq_error.mpr ⟨i, c, ht, dropPure?_eq_error.mpr ⟨rfl, hs⟩⟩
    · exact .inl ⟨i, c, ht, restore?_eq_error.mpr (.inr ⟨rfl, hs⟩)⟩

theorem ExceptionFlow.nextLabel_bypass (code : Listing) (entries : List Label) (start target : Label) :
    (bypass code entries start target).nextLabel = code.nextLabel := by
  rw [← code.redirect_nextLabel fun l => if entries.contains l then target else l]
  unfold bypass
  dsimp only
  repeat' split
  all_goals rfl

open ExceptionFlow in
/-- A range that is undone takes at most one label. -/
theorem Body.room_of_restore (h : restore? b index = .ok (some b')) :
    b'.code.nextLabel + b'.ranges.length ≤ b.code.nextLabel + b.ranges.length := by
  obtain ⟨r, _, _, code, hfound, hlabel, rfl⟩ := restore?_eq_some h
  obtain ⟨_, _, _, _, _, hr, -⟩ := redirection?_eq_some hfound
  have hindex := (List.getElem?_eq_some_iff.mp hr).1
  have hcode : code.nextLabel ≤ b.code.nextLabel + 1 := by
    rcases labelOf_eq_ok.mp hlabel with ⟨-, rfl⟩ | ⟨_, -, -, rfl, rfl⟩
    · exact Nat.le_succ _
    · exact Nat.max_le.mpr ⟨Nat.le_succ _, Nat.le_refl _⟩
  have hlength := length_eraseIdx_add_one hindex
  show (bypass ..).nextLabel + (b.ranges.eraseIdx index).length ≤ _
  rw [nextLabel_bypass, ← hlength, ← Nat.add_assoc, Nat.add_right_comm]
  exact Nat.add_le_add_right hcode _

open ExceptionFlow in
/-- Only a body that has given out nearly all labels lacks one. -/
theorem Body.LacksLabel.room (h : b.LacksLabel) : 4294967295 < b.code.nextLabel + b.ranges.length := by
  obtain ⟨i, c, ht, hnone, r, _, hfound⟩ := h
  obtain ⟨_, _, _, _, _, hr, -⟩ := redirection?_eq_some hfound
  have hlength := (List.getElem?_eq_some_iff.mp hr).1
  have hroom := ht.keeps
    (fun _ _ _ hd hr => Nat.le_trans (room_of_restore hr) hd) (Nat.le_refl _)
  exact Nat.lt_of_lt_of_le (Nat.lt_add_of_pos_right (Nat.zero_lt_of_lt hlength))
    (Nat.le_trans (Nat.add_le_add_right hnone _) hroom)

/-- Some instruction reads the last local slot as the first of two. -/
def Body.ReadsPastLastSlot (b : Body) : Prop :=
  ∃ n ∈ b.nodes, ∃ kind, kind.slots = 2 ∧ n.instr = .load kind 65535

theorem ExceptionFlow.DiscardStumbles.readsPastLastSlot (h : DiscardStumbles b handler) : b.ReadsPastLastSlot := by
  obtain ⟨_, _, -, -, _, kind, _, he, hk, -⟩ := h
  have hmem : .load kind 65535 ∈ b.code.instrs := by
    rw [he]
    simp
  obtain ⟨n, hn, hi⟩ := mem_map.mp hmem
  exact ⟨n, hn, kind, hk, hi⟩

namespace Body.WellFormed

open ExceptionFlow

variable (h : b.WellFormed)

include h

theorem readsPastLastSlot_of_restore (hr : restore? b index = .ok (some b')) (hb' : b'.ReadsPastLastSlot) :
    b.ReadsPastLastSlot := by
  obtain ⟨r, _, target, code, hfound, hl, rfl⟩ := restore?_eq_some hr
  obtain ⟨_, _, discard, _, _, hrange, -, -, -, -, hdiscard, -, -, hc⟩ := redirection?_eq_some hfound
  have hd : discard ∈ b.nodes := Listing.mem_of_realAt? h.intact (discard?_eq_some hdiscard).1
  obtain ⟨hcode, hlands, hold⟩ := h.continuation hd hc hl
  obtain ⟨_, a, _, hns, ha⟩ := exists_of_mem_labelsOf (hcode.range_bound (mem_of_getElem? hrange)).1
  obtain ⟨-, _, hnodes, hinserted⟩ := hcode.bypass hlands hns ha (entryLabels { b with code } r.start)
  obtain ⟨n, hn, kind, hk, hload⟩ := hb'
  have hkept : ∀ m ∈ code.nodes, m.retarget (sendTo (entryLabels { b with code } r.start) target) = n →
      b.ReadsPastLastSlot := by
    rintro m hm rfl
    have hm' : m.instr = .load kind 65535 := by
      rw [Node.instr_retarget] at hload
      cases hi : m.instr <;> rw [hi] at hload <;> cases hload
      rfl
    rcases hold m hm with hm | hlabel
    · exact ⟨m, hm, kind, hk, hm'⟩
    · rw [hm'] at hlabel
      cases hlabel
  change n ∈ (ExceptionFlow.bypass code _ _ _).nodes at hn
  rw [hnodes, mem_append, mem_append, mem_map, mem_map] at hn
  change code.nodes = _ at hns
  rw [hns] at hkept
  rcases hn with ⟨m, hm, he⟩ | hn | ⟨m, hm, he⟩
  · exact hkept m (mem_append_left _ hm) he
  · rcases hinserted with ⟨-, _, rfl⟩ | ⟨-, rfl⟩
    · obtain rfl := mem_singleton.mp hn
      cases hload
    · cases hn
  · exact hkept m (mem_append_right _ hm) he

theorem readsPastLastSlot_of_dropPure (hd : dropPure? b index = .ok (some b')) (hb' : b'.ReadsPastLastSlot) :
    b.ReadsPastLastSlot := by
  rcases dropPure?_eq_some hd with rfl | ⟨r, last, -, -, -, -, hlast, -, rfl⟩
  · exact hb'
  · obtain ⟨hlr, a, c, -, -, hsub⟩ := h.mem_realBetween.mp (mem_of_getLast? hlast)
    obtain ⟨pre, post, hns⟩ := append_of_mem (hsub.subset (show last ∈ [a, last, c] by simp))
    have hnodes : (b.code.replace last.id (.jump r.handler)).2.nodes =
        pre ++ ⟨last.id, some (.jump r.handler)⟩ :: post :=
      nodes_of_strands (replace_strands (hns ▸ h.strands) (h.live (by rw [hns]; simp))
        (h.ids_ne_of_append hns) (by simp [Node.isLabel, Instruction.label?_of_isReal hlr]) rfl)
    obtain ⟨n, hn, kind, hk, hload⟩ := hb'
    change n ∈ (b.code.replace last.id (.jump r.handler)).2.nodes at hn
    rw [hnodes] at hn
    rcases mem_append.mp hn with hn | hn
    · exact ⟨n, by rw [hns]; simp [hn], kind, hk, hload⟩
    · rcases mem_cons.mp hn with rfl | hn
      · cases hload
      · exact ⟨n, by rw [hns]; simp [hn], kind, hk, hload⟩

/-- Only a body that reads the last slot as the first of two stumbles. -/
theorem readsPastLastSlot_of_stumbles (hs : b.Stumbles) : b.ReadsPastLastSlot := by
  let P (b' : Body) : Prop := b'.WellFormed ∧ (b'.ReadsPastLastSlot → b.ReadsPastLastSlot)
  have hrestore : ∀ b₁ b₂ index, P b₁ → restore? b₁ index = .ok (some b₂) → P b₂ := fun b₁ b₂ index h₁ hr =>
    ⟨h₁.1.restore hr, fun h₂ => h₁.2 (h₁.1.readsPastLastSlot_of_restore hr h₂)⟩
  have hdrop : ∀ b₁ b₂ index, P b₁ → dropPure? b₁ index = .ok (some b₂) → P b₂ := fun b₁ b₂ index h₁ hr =>
    ⟨h₁.1.dropPure hr, fun h₂ => h₁.2 (h₁.1.readsPastLastSlot_of_dropPure hr h₂)⟩
  rcases hs with ⟨i, c, ht, r, _, _, -, -, -, -, -, hd⟩ | ⟨_, b', hr, i, c, ht, r, -, -, -, -, hd⟩
  · exact (ht.keeps hrestore ⟨h, id⟩).2 hd.readsPastLastSlot
  · exact (ht.keeps hdrop (each_keeps (fun i c c' _ => hrestore c c' i) ⟨h, id⟩ hr)).2 hd.readsPastLastSlot

end Body.WellFormed

end Untangle
