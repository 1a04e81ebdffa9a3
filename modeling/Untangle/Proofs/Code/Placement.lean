import Untangle.Proofs.Code.Program
import Untangle.Proofs.Code.Tables

/-!
# Placed instructions as a program

Instructions that were placed one after the other divide the code: what stands before a place is read
from the bytes before its offset, and what stands behind it from the bytes from its offset on. So the
number of instructions that are read before an offset is the number of instructions placed before it,
with one more for each conditional jump that was made wide.
-/

namespace Untangle

open List Instruction

variable {ps : List Placed} {i : Instr} {p : Placed} {d : Nat × Decoded} {before : List UInt16} {place : Label → Nat}

namespace Layout

theorem consecutive_append {qs : List Placed} :
    Consecutive first (ps ++ qs) last ↔ ∃ mid, Consecutive first ps mid ∧ Consecutive mid qs last := by
  induction ps generalizing first with
  | nil => exact ⟨fun h => ⟨first, rfl, h⟩, fun ⟨mid, he, h⟩ => (by cases he; exact h)⟩
  | cons p ps ih =>
    rw [cons_append, Consecutive, ih]
    constructor
    · rintro ⟨hp, mid, hps, hqs⟩
      exact ⟨mid, ⟨hp, hps⟩, hqs⟩
    · rintro ⟨mid, ⟨hp, hps⟩, hqs⟩
      exact ⟨hp, mid, hps, hqs⟩

theorem Consecutive.le (h : Consecutive first ps last) : first ≤ last := by
  induction ps generalizing first with
  | nil => exact le_of_eq h
  | cons p ps ih =>
    have hle := ih h.2
    omega

/-- Every chunk lies between the two ends. -/
theorem Consecutive.bounds (h : Consecutive first ps last) (hp : p ∈ ps) :
    first ≤ p.offset ∧ p.offset + p.size ≤ last := by
  obtain ⟨_, _, rfl⟩ := append_of_mem hp
  obtain ⟨_, hb, hmid, ha⟩ := consecutive_append.mp h
  have hle := hb.le
  have hle' := ha.le
  omega

end Layout

namespace Assembly

variable {size : Nat}

open Bytes Decoding Encoding Layout Disassembly

/-- A conditional jump that was made wide. -/
def isSpread (z : Instr × Placed) : Bool :=
  match z.1 with
  | .branch _ _ => z.2.wide
  | _ => false

/-- What is read back from all places. -/
def readAll (offset : Label → Nat) (zs : List (Instr × Placed)) : List (Nat × Decoded) :=
  zs.flatMap fun z => readBack offset z.2.wide z.2.offset z.1

theorem readAll_append (offset : Label → Nat) (ys zs : List (Instr × Placed)) :
    readAll offset (ys ++ zs) = readAll offset ys ++ readAll offset zs := flatMap_append

theorem readAll_cons (offset : Label → Nat) (z : Instr × Placed) (zs : List (Instr × Placed)) :
    readAll offset (z :: zs) = readBack offset z.2.wide z.2.offset z.1 ++ readAll offset zs := flatMap_cons

theorem readBack_eq_nil {wide : Bool} {o : Nat} (h : i.isReal = false) : readBack offset wide o i = [] := by
  cases i with
  | label | line => rfl
  | _ => cases h

/-- The instructions stand one after the other, each in its chunk. -/
structure Laid (pool : Pool) (bootstraps : List BootstrapEntry) (first : Nat) (zs : List (Instr × Placed))
    (last : Nat) : Prop where
  consecutive : Consecutive first (zs.map Prod.snd) last
  writes : ∀ z ∈ zs, Writes pool bootstraps z.2.chunk z.1

variable {pool : Pool} {bootstraps : List BootstrapEntry} {offset : Label → Nat} {first last : Nat}
  {ys zs : List (Instr × Placed)} {z : Instr × Placed}

theorem laid_append : Laid pool bootstraps first (ys ++ zs) last ↔
    ∃ mid, Laid pool bootstraps first ys mid ∧ Laid pool bootstraps mid zs last := by
  constructor
  · rintro ⟨hc, hw⟩
    rw [map_append] at hc
    obtain ⟨mid, hys, hzs⟩ := consecutive_append.mp hc
    exact ⟨mid, ⟨hys, fun z hz => hw z (mem_append_left _ hz)⟩,
      hzs, fun z hz => hw z (mem_append_right _ hz)⟩
  · rintro ⟨mid, hys, hzs⟩
    refine ⟨?_, fun z hz => ?_⟩
    · rw [map_append]
      exact consecutive_append.mpr ⟨mid, hys.consecutive, hzs.consecutive⟩
    · exact (mem_append.mp hz).elim (hys.writes z) (hzs.writes z)

theorem laid_cons : Laid pool bootstraps first (z :: zs) last ↔
    z.2.offset = first ∧ Writes pool bootstraps z.2.chunk z.1 ∧
      Laid pool bootstraps (first + z.2.size) zs last := by
  constructor
  · rintro ⟨⟨ho, hc⟩, hw⟩
    exact ⟨ho, hw z mem_cons_self, hc, fun y hy => hw y (mem_cons_of_mem z hy)⟩
  · rintro ⟨ho, hz, hc, hw⟩
    refine ⟨⟨ho, hc⟩, fun y hy => ?_⟩
    rcases mem_cons.mp hy with rfl | hy
    · exact hz
    · exact hw y hy

/-- Exactly the instructions that execute something take bytes. -/
theorem size_pos_iff (h : Writes pool bootstraps z.2.chunk z.1) : 0 < z.2.size ↔ z.1.isReal = true := by
  obtain ⟨i, c, wide, o⟩ := z
  cases i with
  | label | line =>
    cases h
    simp [Placed.size, Chunk.size, isReal]
  | jump | callSub | branch | tableSwitch | lookupSwitch =>
    cases h
    cases wide <;> simp [Placed.size, Chunk.size, isReal]
  | _ =>
    obtain ⟨_, hdata, hs⟩ := h
    cases hdata
    have hne := (hs (fun _ => 0) pool 0 (.refl pool)).ne_nil
    simpa [Placed.size, Chunk.size, isReal] using length_pos_iff.mpr hne

theorem length_readBack (z : Instr × Placed) :
    (readBack offset z.2.wide z.2.offset z.1).length =
      if z.1.isReal then 1 + (if isSpread z then 1 else 0) else 0 := by
  obtain ⟨i, c, wide, o⟩ := z
  cases i with
  | branch _ t => cases wide <;> rfl
  | _ => rfl

/-- What an instruction is read back as starts at its offset and lies in its chunk. -/
theorem readBack_eq_cons (offset : Label → Nat) (h : Writes pool bootstraps z.2.chunk z.1) (hr : z.1.isReal = true) :
    ∃ i more, readBack offset z.2.wide z.2.offset z.1 = (z.2.offset, i) :: more ∧
      ∀ d ∈ more, z.2.offset ≤ d.1 ∧ d.1 < z.2.offset + z.2.size := by
  obtain ⟨i, c, wide, o⟩ := z
  cases i with
  | label | line => cases hr
  | branch _ t =>
    cases h
    cases wide with
    | false => exact ⟨_, [], rfl, by simp⟩
    | true => exact ⟨_, _, rfl, by simp [Placed.size, Chunk.size]⟩
  | _ => exact ⟨_, [], rfl, by simp⟩

theorem readBack_bounds (h : Writes pool bootstraps z.2.chunk z.1) (hd : d ∈ readBack offset z.2.wide z.2.offset z.1) :
    z.2.offset ≤ d.1 ∧ d.1 < z.2.offset + z.2.size := by
  have hr : z.1.isReal = true := by
    by_contra hc
    rw [readBack_eq_nil (Bool.not_eq_true _ ▸ hc)] at hd
    cases hd
  obtain ⟨i, _, he, hmore⟩ := readBack_eq_cons offset h hr
  have hpos := (size_pos_iff h).mpr hr
  rw [he] at hd
  rcases mem_cons.mp hd with rfl | hd
  · exact ⟨le_refl _, by simp only; omega⟩
  · exact hmore d hd

/-- What is read back from between two offsets starts between them. -/
theorem Laid.bounds (h : Laid pool bootstraps first zs last) (hd : d ∈ readAll offset zs) :
    first ≤ d.1 ∧ d.1 < last := by
  obtain ⟨z, hz, hd⟩ := mem_flatMap.mp hd
  obtain ⟨hlow, hhigh⟩ := readBack_bounds (h.writes z hz) hd
  obtain ⟨hfirst, hlast⟩ := h.consecutive.bounds (mem_map_of_mem hz)
  omega

/-- An offset between placed instructions has as many instructions before it as are read back from there. -/
theorem Laid.rank_eq {mid : Nat} (hy : Laid pool bootstraps first ys mid) (hz : Laid pool bootstraps mid zs last) :
    rank (readAll offset (ys ++ zs)) mid = (readAll offset ys).length := by
  rw [readAll_append]
  exact rank_append (fun d hd => (hy.bounds hd).2) fun d hd => (hz.bounds hd).1

/-- Where an instruction follows, one is read. -/
theorem Laid.first_mem (h : Laid pool bootstraps first zs last) (hr : ∃ z ∈ zs, z.1.isReal = true) :
    first ∈ (readAll offset zs).map Prod.fst := by
  induction zs generalizing first with
  | nil => simp at hr
  | cons z zs ih =>
    obtain ⟨rfl, hw, htail⟩ := laid_cons.mp h
    rw [readAll_cons, map_append]
    by_cases hz : z.1.isReal = true
    · obtain ⟨i, _, he, -⟩ := readBack_eq_cons offset hw hz
      rw [he]
      exact mem_append_left _ mem_cons_self
    · have hsize : z.2.size = 0 := Nat.eq_zero_of_not_pos fun hpos => hz ((size_pos_iff hw).mp hpos)
      rw [hsize] at htail
      refine mem_append_right _ (ih htail ?_)
      obtain ⟨y, hy, hyr⟩ := hr
      rcases mem_cons.mp hy with rfl | hy
      · exact absurd hyr hz
      · exact ⟨y, hy, hyr⟩

/-- The start of what is placed is the start of an instruction, or the end of all. -/
theorem Laid.first_mem_or (offset : Label → Nat) (h : Laid pool bootstraps first zs last) :
    first ∈ (readAll offset zs).map Prod.fst ∨ first = last := by
  by_cases hr : ∃ z ∈ zs, z.1.isReal = true
  · exact .inl (h.first_mem hr)
  · refine .inr ?_
    push Not at hr
    induction zs generalizing first with
    | nil => exact h.consecutive
    | cons z zs ih =>
      obtain ⟨rfl, hw, htail⟩ := laid_cons.mp h
      have hsize : z.2.size = 0 :=
        Nat.eq_zero_of_not_pos fun hpos => hr z mem_cons_self ((size_pos_iff hw).mp hpos)
      rw [hsize] at htail
      exact ih htail fun y hy => hr y (mem_cons_of_mem z hy)

/-- Whatever is placed is placed at the start of an instruction, or at the end of all. -/
theorem Laid.offset_mem (offset : Label → Nat) (h : Laid pool bootstraps first zs last) (hz : z ∈ zs) :
    z.2.offset ∈ boundaries last (readAll offset zs) := by
  obtain ⟨_, _, rfl⟩ := append_of_mem hz
  obtain ⟨_, -, hlaid⟩ := laid_append.mp h
  rw [(laid_cons.mp hlaid).1, boundaries, readAll_append, map_append]
  rcases hlaid.first_mem_or offset with hmem | hend
  · exact mem_append_left _ (mem_append_right _ hmem)
  · exact mem_append_right _ (mem_singleton.mpr hend)

/-! ### Positions -/

/-- For each instruction, whether it was taken apart. -/
def flags (zs : List (Instr × Placed)) : List Bool := (zs.filter (·.1.isReal)).map isSpread

theorem flags_append (ys zs : List (Instr × Placed)) : flags (ys ++ zs) = flags ys ++ flags zs := by
  rw [flags, filter_append, map_append]
  rfl

theorem length_flags (zs : List (Instr × Placed)) : (flags zs).length = zs.countP (·.1.isReal) := by
  rw [flags, length_map, countP_eq_length_filter]

theorem flags_cons (hr : z.1.isReal = true) : flags (z :: zs) = isSpread z :: flags zs := by
  rw [flags, filter_cons_of_pos (p := fun z : Instr × Placed => z.1.isReal) hr]
  rfl

theorem flags_cons_of_not_isReal (hr : ¬ z.1.isReal = true) : flags (z :: zs) = flags zs := by
  rw [flags, filter_cons_of_neg (p := fun z : Instr × Placed => z.1.isReal) hr]
  rfl

/-- Each instruction is read back as one, and as two if it was taken apart. -/
theorem length_readAll (ys : List (Instr × Placed)) :
    (readAll offset ys).length = ys.countP (·.1.isReal) + (flags ys).count true := by
  induction ys with
  | nil => rfl
  | cons y ys =>
    rw [readAll_cons, length_append, length_readBack]
    rw [countP_cons]
    by_cases hr : y.1.isReal = true
    · rw [if_pos hr, if_pos hr, flags_cons hr, count_cons]
      simp only [beq_iff_eq]
      omega
    · rw [if_neg hr, if_neg hr, flags_cons_of_not_isReal hr]
      omega

theorem shifted_flags (ys zs : List (Instr × Placed)) :
    Program.shifted (flags (ys ++ zs)) (ys.countP (·.1.isReal)) = (readAll offset ys).length := by
  rw [Program.shifted, flags_append, ← length_flags, take_left, length_readAll, length_flags]

/-- The offset of a label is the offset of the label's position. -/
theorem Laid.rank_label {rest : List (Instr × Placed)} {name : Label}
    (h : Laid pool bootstraps first (ys ++ z :: rest) last) (hz : z.1 = .label name)
    (hfresh : .label name ∉ ys.map Prod.fst) :
    rank (readAll offset (ys ++ z :: rest)) z.2.offset =
      Program.shifted (flags (ys ++ z :: rest)) (position ((ys ++ z :: rest).map Prod.fst) name) := by
  obtain ⟨_, hys, hzs⟩ := laid_append.mp h
  have hpos : position ((ys ++ z :: rest).map Prod.fst) name = ys.countP (·.1.isReal) := by
    rw [map_append, map_cons, hz, position_eq hfresh, countP_map]
    rfl
  rw [(laid_cons.mp hzs).1, hys.rank_eq hzs, hpos, shifted_flags]

/-! ### Steps -/

/-- The lines behind the last instruction; `lines` holds those before the first. -/
def pending (lines : List UInt16) : List Instr → List UInt16
  | [] => lines
  | .label _ :: rest => pending lines rest
  | .line number :: rest => pending (lines ++ [number]) rest
  | _ :: rest => pending [] rest

theorem pending_append (lines : List UInt16) (is js : List Instr) :
    pending lines (is ++ js) = pending (pending lines is) js := by
  fun_induction pending lines is with
  | case1 => rfl
  | case2 lines _ rest ih => rw [cons_append, pending, ih]
  | case3 lines _ rest ih => rw [cons_append, pending, ih]
  | case4 lines i rest _ _ ih => rw [cons_append, pending] <;> assumption

theorem pending_real {lines : List UInt16} (hi : i.isReal = true) : pending lines [i] = [] := by
  cases i with
  | label | line => cases hi
  | _ => rfl

variable {lines : Nat → List UInt16}

/-- One instruction is read back as its step is spread. -/
theorem readBack_spread {wide : List Bool} {k : Nat} {rankOf : Nat → Nat} (hr : z.1.isReal = true)
    (hk : wide.getD k false = isSpread z)
    (hplace : ∀ t ∈ z.1.targets, rankOf (offset t) = Program.shifted wide (place t))
    (hnext : isSpread z = true → rankOf (z.2.offset + 8) = Program.shifted wide (k + 1))
    (hline : lines z.2.offset = before) (hgap : isSpread z = true → lines (z.2.offset + 3) = []) :
    (readBack offset z.2.wide z.2.offset z.1).map
        (fun d => (⟨lines d.1, d.2.mapTargets fun t => rankOf t.toNat⟩ : Program.Step)) =
      Program.Step.spread wide k ⟨before, (z.1.mapTargets place).keysInOrder⟩ := by
  subst hline
  obtain ⟨i, c, w, o⟩ := z
  -- targets become positions in either way
  have hsame : ((i.keysInOrder.mapTargets fun t => (offset t : Int)).mapTargets fun t => rankOf t.toNat) =
      (i.mapTargets place).keysInOrder.mapTargets (Program.shifted wide) := by
    rw [keysInOrder_mapTargets, mapTargets_mapTargets, mapTargets_mapTargets]
    refine mapTargets_congr fun t ht => ?_
    exact hplace t (mem_targets_keysInOrder.mp ht)
  cases i with
  | label | line => cases hr
  | branch _ t =>
    cases w with
    | false =>
      simp only [Program.Step.spread, hk]
      exact congrArg (fun i => [(⟨lines o, i⟩ : Program.Step)]) hsame
    | true =>
      have hk : wide.getD k false = true := hk
      have hover : rankOf ((o : Int) + 8).toNat = Program.shifted wide (k + 1) := hnext rfl
      have htarget : rankOf ((offset t : Int)).toNat = Program.shifted wide (place t) := by
        exact hplace t (mem_singleton_self t)
      have hgap : lines (o + 3) = [] := hgap rfl
      simp only [Program.Step.spread, mapTargets, keysInOrder, hk, readBack, if_true,
        map_cons, map_nil, hover, htarget, hgap]
  | _ => exact congrArg (fun i => [(⟨lines o, i⟩ : Program.Step)]) hsame

theorem size_of_isSpread (hw : Writes pool bootstraps z.2.chunk z.1) (hs : isSpread z = true) : z.2.size = 8 := by
  obtain ⟨i, c, w, o⟩ := z
  cases i with
  | branch _ t =>
    cases hw
    have hw : w = true := hs
    subst hw
    rfl
  | _ => cases hs

/-- What follows a conditional jump that was made wide is eight bytes behind it. -/
theorem Laid.end_eq (h : Laid pool bootstraps first (ys ++ [z]) last) (hs : isSpread z = true) :
    z.2.offset + 8 = last := by
  obtain ⟨_, -, hz⟩ := laid_append.mp h
  obtain ⟨ho, hw, hnil⟩ := laid_cons.mp hz
  rw [ho, ← size_of_isSpread hw hs]
  exact hnil.consecutive

theorem numbered_of_not_isReal {rest : List Instr} (h : ¬ i.isReal = true) :
    numbered before (i :: rest) = numbered (pending before [i]) rest := by
  cases i with
  | label | line => rfl
  | _ => exact absurd rfl h

/-- All instructions are read back as the steps of the program are spread. -/
theorem Laid.steps_eq {all : List (Instr × Placed)} (h : Laid pool bootstraps first all last)
    (hplace : ∀ z ∈ all, ∀ t ∈ z.1.targets,
      rank (readAll offset all) (offset t) = Program.shifted (flags all) (place t))
    (hline : ∀ ys z zs, all = ys ++ z :: zs → z.1.isReal = true →
      lines z.2.offset = (pending [] (ys.map Prod.fst)).getLast?.toList)
    (hgap : ∀ z ∈ all, isSpread z = true → lines (z.2.offset + 3) = [])
    (ys zs : List (Instr × Placed)) (hall : all = ys ++ zs) :
    (readAll offset zs).map (fun d =>
        (⟨lines d.1, d.2.mapTargets fun t => rank (readAll offset all) t.toNat⟩ : Program.Step)) =
      ((numbered (pending [] (ys.map Prod.fst)) (zs.map Prod.fst)).zipIdx (ys.countP (·.1.isReal))).flatMap fun x =>
        Program.Step.spread (flags all) x.2 ⟨x.1.1.getLast?.toList, (x.1.2.mapTargets place).keysInOrder⟩ := by
  induction zs generalizing ys with
  | nil => rfl
  | cons z zs ih =>
    have hsplit : all = (ys ++ [z]) ++ zs := by rw [hall, append_assoc]; rfl
    have ih := ih (ys ++ [z]) hsplit
    rw [map_append, map_singleton, pending_append, countP_append, countP_singleton] at ih
    have hz : z ∈ all := by rw [hall]; exact mem_append_right _ mem_cons_self
    rw [readAll_cons, map_append]
    by_cases hr : z.1.isReal = true
    · rw [pending_real hr, if_pos hr] at ih
      rw [map_cons, numbered_real hr]
      congr 1
      refine readBack_spread hr ?_ (hplace z hz) (fun hs => ?_) (hline ys z zs hall hr) (hgap z hz)
      · rw [hall, flags_append, flags_cons hr, ← length_flags, getD_eq_getElem?_getD,
          getElem?_append_right (le_refl _), Nat.sub_self]
        rfl
      · rw [hsplit] at h ⊢
        obtain ⟨_, hys, hzs⟩ := laid_append.mp h
        rw [hys.end_eq hs, hys.rank_eq hzs, ← shifted_flags (ys ++ [z]) zs, countP_append, countP_singleton, if_pos hr]
    · rw [readBack_eq_nil (Bool.not_eq_true _ ▸ hr), map_nil, nil_append, ih, if_neg hr, add_zero,
        map_cons, numbered_of_not_isReal hr]

/-! ### Lines -/

theorem lineEntries_append (size : Nat) (ps qs : List Placed) :
    lineEntries size (ps ++ qs) = lineEntries size ps ++ lineEntries size qs := filterMap_append

/-- A line has an entry at its offset, if code follows. -/
theorem mem_lineEntries {e : LineEntry} :
    e ∈ lineEntries size ps ↔
      ∃ p ∈ ps, p.chunk = .line e.line ∧ p.offset < size ∧ e.start = UInt16.ofNat p.offset := by
  rw [lineEntries, mem_filterMap]
  exact exists_congr fun p => and_congr_right fun _ => entryOfLine_eq_some

theorem lineEntries_of_line {number : UInt16} (hp : p.chunk = .line number) (hlt : p.offset < size) :
    lineEntries size [p] = [⟨UInt16.ofNat p.offset, number⟩] := by
  simp [lineEntries, entryOfLine, hp, hlt]

theorem ne_line_of_isReal (h : i.isReal = true) (number : UInt16) : i ≠ .line number := by
  rintro rfl
  cases h

/-- Only lines have entries. -/
theorem chunk_ne_line (h : Writes pool bootstraps z.2.chunk z.1) (hz : ∀ number, z.1 ≠ .line number) (number : UInt16) :
    z.2.chunk ≠ .line number := by
  obtain ⟨i, c, w, o⟩ := z
  rintro rfl
  cases i with
  | line n => exact hz n rfl
  | label | jump | callSub | branch | tableSwitch | lookupSwitch => cases h
  | _ =>
    obtain ⟨_, hdata, -⟩ := h
    cases hdata

theorem lineEntries_eq_nil (h : Writes pool bootstraps z.2.chunk z.1) (hz : ∀ number, z.1 ≠ .line number) :
    lineEntries size [z.2] = [] := by
  refine eq_nil_iff_forall_not_mem.mpr fun e he => ?_
  obtain ⟨p, hp, hc, -⟩ := mem_lineEntries.mp he
  rw [mem_singleton.mp hp] at hc
  exact chunk_ne_line h hz _ hc

/-- The entries at an offset are the lines behind the last instruction before it. -/
theorem Laid.lineEntries_eq (h : Laid pool bootstraps first ys last) (hlt : last < size) (hsize : size ≤ 65535) :
    ((lineEntries size (ys.map Prod.snd)).filter (·.start.toNat = last)).map LineEntry.line =
      pending [] (ys.map Prod.fst) := by
  induction ys using reverseRecOn generalizing last with
  | nil => rfl
  | append_singleton ys z ih =>
    obtain ⟨mid, hys, hz⟩ := laid_append.mp h
    obtain ⟨ho, hw, hnil⟩ := laid_cons.mp hz
    have hend : mid + z.2.size = last := hnil.consecutive
    rw [map_append, map_append, map_singleton, map_singleton, pending_append,
      lineEntries_append, filter_append, map_append]
    by_cases hr : z.1.isReal = true
    · -- all lines start before this instruction
      have hpos := (size_pos_iff hw).mpr hr
      have hnone : (lineEntries size (ys.map Prod.snd)).filter (·.start.toNat = last) = [] := by
        refine filter_eq_nil_iff.mpr fun e he => ?_
        obtain ⟨p, hp, -, -, hstart⟩ := mem_lineEntries.mp he
        have hle := (hys.consecutive.bounds hp).2
        rw [hstart, toNat_ofNat16 (by omega), decide_eq_true_eq]
        omega
      rw [pending_real hr, hnone, lineEntries_eq_nil hw (ne_line_of_isReal hr)]
      rfl
    · have hmid : mid = last := by
        have hsz : ¬ 0 < z.2.size := fun hpos => hr ((size_pos_iff hw).mp hpos)
        omega
      subst hmid
      rw [ih hys hlt]
      obtain ⟨i, p⟩ := z
      cases i with
      | line =>
        rw [lineEntries_of_line hw (by rw [ho]; exact hlt), ho,
          filter_cons_of_pos (by simpa using toNat_ofNat16 (by omega))]
        rfl
      | label =>
        rw [lineEntries_eq_nil hw (by simp)]
        exact append_nil _
      | _ => exact absurd rfl hr

/-- The entries at an instruction are the lines before it. -/
theorem Laid.lineEntries_at (h : Laid pool bootstraps first (ys ++ z :: zs) size) (hsize : size ≤ 65535)
    (hr : z.1.isReal = true) :
    ((lineEntries size ((ys ++ z :: zs).map Prod.snd)).filter (·.start.toNat = z.2.offset)).map LineEntry.line =
      pending [] (ys.map Prod.fst) := by
  obtain ⟨_, hys, hzs⟩ := laid_append.mp h
  obtain ⟨rfl, hw, hrest⟩ := laid_cons.mp hzs
  have hpos := (size_pos_iff hw).mpr hr
  have hle := hrest.consecutive.le
  have hnone : (lineEntries size ((z :: zs).map Prod.snd)).filter (·.start.toNat = z.2.offset) = [] := by
    refine filter_eq_nil_iff.mpr fun e he => ?_
    obtain ⟨p, hp, hc, hlt, hstart⟩ := mem_lineEntries.mp he
    rw [hstart, toNat_ofNat16 (by omega), decide_eq_true_eq]
    rcases mem_cons.mp hp with rfl | hp
    · exact absurd hc (chunk_ne_line hw (ne_line_of_isReal hr) _)
    · have hge := (hrest.consecutive.bounds hp).1
      omega
  rw [map_append, lineEntries_append, filter_append, hnone, append_nil, hys.lineEntries_eq (by omega) hsize]

/-- No line starts inside a conditional jump that was made wide. -/
theorem Laid.lineEntries_gap (h : Laid pool bootstraps first zs size) (hsize : size ≤ 65535) (hz : z ∈ zs)
    (hs : isSpread z = true) : (lineEntries size (zs.map Prod.snd)).filter (·.start.toNat = z.2.offset + 3) = [] := by
  obtain ⟨_, _, rfl⟩ := append_of_mem hz
  refine filter_eq_nil_iff.mpr fun e he => ?_
  obtain ⟨p, hp, -, hlt, hstart⟩ := mem_lineEntries.mp he
  obtain ⟨_, hys, hzs⟩ := laid_append.mp h
  obtain ⟨rfl, hw, hrest⟩ := laid_cons.mp hzs
  have hsz := size_of_isSpread hw hs
  rw [hstart, toNat_ofNat16 (by omega), decide_eq_true_eq]
  rw [map_append, map_cons, mem_append, mem_cons] at hp
  rcases hp with hp | rfl | hp
  · have hle := (hys.consecutive.bounds hp).2
    omega
  · omega
  · have hge := (hrest.consecutive.bounds hp).1
    omega

/-- The lines are in the order of their offsets. -/
theorem pairwise_lineEntries (h : Consecutive first ps last) (hsize : size ≤ 65535) :
    (lineEntries size ps).Pairwise fun e f => e.start ≤ f.start := by
  have hps : ps.Pairwise fun p q => p.offset ≤ q.offset := by
    induction ps generalizing first with
    | nil => exact .nil
    | cons p ps ih =>
      refine .cons (fun q hq => ?_) (ih h.2)
      have hge := (Consecutive.bounds h.2 hq).1
      have ho := h.1
      omega
  refine hps.filterMap _ fun p q hle e he f hf => ?_
  obtain ⟨-, -, he⟩ := entryOfLine_eq_some.mp he
  obtain ⟨-, hq, hf⟩ := entryOfLine_eq_some.mp hf
  rw [he, hf, UInt16.le_iff_toNat_le, toNat_ofNat16 (by omega), toNat_ofNat16 (by omega)]
  exact hle

end Assembly

end Untangle
