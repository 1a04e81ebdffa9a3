import Mathlib.Order.Monotone.Basic
import Untangle.Proofs.Code.Disassembly
import Untangle.Proofs.Code.ReadBack

/-!
# The program that a body stands for

A body names the places of its code by labels, and code names them by offsets. A program counts
instructions instead: each target, each end of a range and each end of a variable is the number of
instructions before it. Two bodies that differ only in the names of their labels are the same program.
-/

namespace Untangle

open List Instruction

variable {o o' : Nat} {labels : Labels}

/-- An instruction with the source lines that start at it; its targets are positions. -/
structure Program.Step where
  lines : List UInt16
  instr : Instruction Nat
deriving DecidableEq, Repr

/-- A method body with positions in the place of labels. -/
structure Program where
  maxStack : UInt16
  maxLocals : UInt16
  steps : List Program.Step
  /-- Protected ranges by position. -/
  ranges : List Disassembly.OffsetRange
  /-- Variables by position. -/
  locals : List Disassembly.OffsetVariable
deriving DecidableEq, Repr

/-- The number of instructions before a label. -/
def position (is : List Instr) (name : Label) : Nat := (is.takeWhile (· != .label name)).countP (·.isReal)

/-- The instructions with the lines before each of them; `lines` holds those already passed. -/
def numbered (lines : List UInt16) : List Instr → List (List UInt16 × Instr)
  | [] => []
  | .label _ :: rest => numbered lines rest
  | .line number :: rest => numbered (lines ++ [number]) rest
  | i :: rest => (lines, i) :: numbered [] rest

/-- The program of a body. -/
def Body.program (b : Body) : Program :=
  let place := position b.code.instrs
  { maxStack := b.maxStack
    maxLocals := b.maxLocals
    steps := (numbered [] b.code.instrs).map fun (lines, i) => ⟨lines, i.mapTargets place⟩
    ranges := b.ranges.map fun r => ⟨place r.start, place r.stop, place r.handler, r.catchType⟩
    locals := b.locals.map fun v => ⟨v.name, v.descriptor, place v.start, place v.stop, v.index⟩ }

namespace Program

/-- What code can say of the program: of the lines at an instruction the last one, the keys of a switch in
order, no range without instructions and no variable that ends before it starts. -/
def tidy (p : Program) : Program :=
  { p with
    steps := p.steps.map fun s => ⟨s.lines.getLast?.toList, s.instr.keysInOrder⟩
    ranges := p.ranges.filter fun r => r.start < r.stop
    locals := p.locals.filter fun v => v.start ≤ v.stop }

/-- The new position of an instruction, if each flagged one before it takes two positions. -/
def shifted (wide : List Bool) (k : Nat) : Nat := k + (wide.take k).count true

/-- The step at position `k`, with a flagged conditional jump as the opposite test over a jump. -/
def Step.spread (wide : List Bool) (k : Nat) (s : Step) : List Step :=
  match s.instr, wide.getD k false with
  | .branch cond target, true =>
    [⟨s.lines, .branch cond.invert (shifted wide (k + 1))⟩, ⟨[], .jump (shifted wide target)⟩]
  | i, _ => [⟨s.lines, i.mapTargets (shifted wide)⟩]

/-- The program with flagged conditional jumps taken apart. -/
def spread (p : Program) (wide : List Bool) : Program :=
  { p with
    steps := p.steps.zipIdx.flatMap fun (s, k) => s.spread wide k
    ranges := p.ranges.map fun r =>
      ⟨shifted wide r.start, shifted wide r.stop, shifted wide r.handler, r.catchType⟩
    locals := p.locals.map fun v =>
      ⟨v.name, v.descriptor, shifted wide v.start, shifted wide v.stop, v.index⟩ }

/-- Only conditional jumps of the program are flagged. -/
def OnlyBranches (p : Program) (wide : List Bool) : Prop :=
  ∀ k : Nat, wide[k]? = some true → ∃ lines cond target, p.steps[k]? = some ⟨lines, .branch cond target⟩

end Program

/-- What comes later comes later still when instructions are taken apart. -/
theorem Program.strictMono_shifted (wide : List Bool) : StrictMono (shifted wide) := by
  refine strictMono_nat_of_lt_succ fun k => ?_
  rw [shifted, shifted, take_add_one, count_append]
  omega

/-! ### Targets -/

namespace Instruction

variable {τ σ : Type}

theorem keysInOrder_mapTargets (f : τ → σ) (i : Instruction τ) :
    (i.mapTargets f).keysInOrder = i.keysInOrder.mapTargets f := by
  cases i with
  | lookupSwitch =>
    simp only [mapTargets, keysInOrder]
    rw [map_mergeSort]
    simp
  | _ => rfl

theorem mem_targets_keysInOrder {t : τ} {i : Instruction τ} : t ∈ i.keysInOrder.targets ↔ t ∈ i.targets := by
  cases i with
  | lookupSwitch _ pairs =>
    simp [keysInOrder, targets]
  | _ => rfl

end Instruction

/-! ### Positions -/

/-- A label that is bound once stands at the number of instructions before it. -/
theorem position_eq {before after : List Instr} {name : Label} (h : .label name ∉ before) :
    position (before ++ .label name :: after) name = before.countP (·.isReal) := by
  have hne : ∀ i ∈ before, (i != .label name) = true := by
    rintro i hi
    rw [bne_iff_ne]
    rintro rfl
    exact h hi
  rw [position, takeWhile_append_of_pos hne, takeWhile_cons_of_neg (by simp), append_nil]

/-! ### Lines -/

theorem numbered_real {lines : List UInt16} {i : Instr} {rest : List Instr} (h : i.isReal = true) :
    numbered lines (i :: rest) = (lines, i) :: numbered [] rest := by
  cases i with
  | label | line => cases h
  | _ => rfl

theorem numbered_lines (lines more : List UInt16) (rest : List Instr) :
    numbered lines (more.map Instruction.line ++ rest) = numbered (lines ++ more) rest := by
  induction more generalizing lines with
  | nil => simp
  | cons n more ih => rw [map_cons, cons_append, numbered, ih, append_assoc, singleton_append]

theorem numbered_label? (lines : List UInt16) (name : Option Label) (rest : List Instr) :
    numbered lines ((name.map Instruction.label).toList ++ rest) = numbered lines rest := by
  cases name <;> rfl

/-! ### The program of decoded code -/

namespace Disassembly

variable {lines : Std.TreeMap Nat (List UInt16)} {ds : List (Nat × Decoded)}

open Decoding

/-- The number of instructions before an offset. -/
def rank (decoded : List (Nat × Decoded)) (o : Nat) : Nat := decoded.countP fun d => d.1 < o

variable {code : CodeAttribute} {decoded : List (Nat × Decoded)} {ranges : List OffsetRange} {remarks : Remarks}

/-- An offset divides ascending instructions into those before it and the others. -/
theorem rank_append {before after : List (Nat × Decoded)} (hb : ∀ d ∈ before, d.1 < o) (ha : ∀ d ∈ after, o ≤ d.1) :
    rank (before ++ after) o = before.length := by
  have hlt : before.countP (fun d => d.1 < o) = before.length :=
    countP_eq_length.mpr fun d hd => decide_eq_true (hb d hd)
  have hge : after.countP (fun d => d.1 < o) = 0 :=
    countP_eq_zero.mpr fun d hd => by simpa using ha d hd
  rw [rank, countP_append, hlt, hge, add_zero]

theorem rank_le_rank (h : o ≤ o') : rank decoded o ≤ rank decoded o' := by
  refine countP_mono_left fun d _ hd => ?_
  rw [decide_eq_true_eq] at hd ⊢
  omega

/-- From the start of an instruction on there is one instruction more. -/
theorem rank_lt_rank (ho : o ∈ decoded.map Prod.fst) (h : o < o') : rank decoded o < rank decoded o' := by
  obtain ⟨d, hd, rfl⟩ := mem_map.mp ho
  obtain ⟨before, after, rfl⟩ := append_of_mem hd
  have hb : rank before d.1 ≤ rank before o' := rank_le_rank (le_of_lt h)
  have ha : rank after d.1 ≤ rank after o' := rank_le_rank (le_of_lt h)
  simp only [rank, countP_append, countP_cons, decide_eq_true_eq] at hb ha ⊢
  rw [if_neg (lt_irrefl _), if_pos h]
  omega

theorem countP_entries (h : ∀ d ∈ ds, Sane d.2) :
    (ds.flatMap (entries labels lines)).countP (·.isReal) = ds.length := by
  induction ds with
  | nil => rfl
  | cons d ds ih =>
    have hone : (entries labels lines d).countP (·.isReal) = 1 := by
      have hlabel : ((labels[d.1]?.map label).toList : List Instr).countP (·.isReal) = 0 := by
        cases labels[d.1]? <;> rfl
      have hlines : ((lines.getD d.1 []).map line : List Instr).countP (·.isReal) = 0 := by
        rw [countP_map]
        exact countP_eq_zero.mpr fun _ _ => by simp [isReal]
      rw [entries, countP_append, countP_append, hlabel, hlines, countP_singleton,
        isReal_mapTargets, (h d mem_cons_self).isReal]
      rfl
    rw [flatMap_cons, countP_append, hone, ih fun e he => h e (mem_cons_of_mem d he), length_cons, add_comm]

/-- A label that instructions before an offset have is not the label of the offset. -/
theorem label_not_mem_entries {offsets : List Nat} (hn : o ∈ offsets) (hsane : ∀ d ∈ ds, Sane d.2)
    (h : ∀ d ∈ ds, d.1 ≠ o) : .label (labelOf (number offsets) o) ∉ ds.flatMap (entries (number offsets) lines) := by
  intro hmem
  have hnum := numbered_number offsets
  obtain ⟨d, hd, hmem⟩ := mem_flatMap.mp hmem
  simp only [entries, mem_append, mem_map, mem_singleton, Option.mem_toList, Option.map_eq_some_iff,
    reduceCtorEq, and_false, exists_false, or_false] at hmem
  rcases hmem with ⟨_, hname, he⟩ | he
  · cases he
    exact h d hd (hnum.injective d.1 o _ hname (hnum.getElem?_eq hn))
  · have hreal := (hsane d hd).isReal
    rw [← isReal_mapTargets (fun t => labelOf (number offsets) t.toNat), ← he] at hreal
    cases hreal

/-- The label of an offset stands at the offset's rank. -/
theorem Fits.position_labelOf (hf : Fits code.code.length decoded ranges remarks.locals)
    (hb : o ∈ boundaries code.code.length decoded) (hn : o ∈ named decoded ranges remarks.locals) :
    position (body code decoded ranges remarks).code.instrs
      (labelOf (number (named decoded ranges remarks.locals)) o) = rank decoded o := by
  have hget := (numbered_number _).getElem?_eq hn
  have hinstrs := instrs_body code decoded ranges remarks
  have hasc := hf.ascending
  have hsane := hf.sane
  rw [boundaries, pairwise_append] at hasc
  -- either an instruction starts at the offset, or the code ends there
  obtain ⟨before, after, hsplit, hlt, hge, rest, hrest⟩ : ∃ before after, decoded = before ++ after ∧
      (∀ d ∈ before, d.1 < o) ∧ (∀ d ∈ after, o ≤ d.1) ∧ ∃ rest,
      (body code decoded ranges remarks).nodes.map Node.instr =
        before.flatMap (entries (number (named decoded ranges remarks.locals)) remarks.lines) ++
          .label (labelOf (number (named decoded ranges remarks.locals)) o) :: rest := by
    rcases mem_append.mp hb with hmem | hmem
    · obtain ⟨d, hd, rfl⟩ := mem_map.mp hmem
      obtain ⟨before, after, rfl⟩ := append_of_mem hd
      have hpair := hasc.1
      rw [map_append, map_cons, pairwise_append, pairwise_cons] at hpair
      refine ⟨before, d :: after, rfl, fun e he => ?_, fun e he => ?_, ?_⟩
      · exact hpair.2.2 e.1 (mem_map_of_mem he) d.1 mem_cons_self
      · rcases mem_cons.mp he with rfl | he
        · exact le_refl _
        · exact le_of_lt (hpair.2.1.1 e.1 (mem_map_of_mem he))
      · rw [hinstrs, flatMap_append, flatMap_cons, append_assoc]
        simp only [entries, hget]
        exact ⟨_, rfl⟩
    · obtain rfl := mem_singleton.mp hmem
      refine ⟨decoded, [], (append_nil _).symm, fun d hd => ?_, by simp, [], ?_⟩
      · exact hasc.2.2 d.1 (mem_map_of_mem hd) _ (mem_singleton_self _)
      · rw [hinstrs, hget]
        rfl
  have hfresh : .label (labelOf (number (named decoded ranges remarks.locals)) o) ∉
      before.flatMap (entries (number (named decoded ranges remarks.locals)) remarks.lines) :=
    label_not_mem_entries hn (fun d hd => hsane d (by rw [hsplit]; exact mem_append_left _ hd))
      fun d hd => ne_of_lt (hlt d hd)
  calc position (body code decoded ranges remarks).code.instrs _
      = (before.flatMap (entries (number (named decoded ranges remarks.locals)) remarks.lines)).countP (·.isReal) := by
        rw [← position_eq hfresh, ← hrest]
        rfl
    _ = before.length := countP_entries fun d hd => hsane d (by rw [hsplit]; exact mem_append_left _ hd)
    _ = rank decoded o := by rw [hsplit, rank_append hlt hge]

theorem numbered_entries (h : ∀ d ∈ ds, Sane d.2) (last : Option Label) :
    numbered [] (ds.flatMap (entries labels lines) ++ (last.map Instruction.label).toList) =
      ds.map fun d => (lines.getD d.1 [], d.2.mapTargets fun t => labelOf labels t.toNat) := by
  induction ds with
  | nil =>
    have hlast := numbered_label? [] last []
    rwa [append_nil] at hlast
  | cons d ds ih =>
    have hreal : (d.2.mapTargets fun t => labelOf labels t.toNat).isReal = true := by
      rw [isReal_mapTargets]
      exact (h d mem_cons_self).isReal
    rw [flatMap_cons, append_assoc, entries, append_assoc, append_assoc, numbered_label?, numbered_lines,
      singleton_append, numbered_real hreal, nil_append, ih fun e he => h e (mem_cons_of_mem d he), map_cons]

/-- The program of decoded code: offsets become positions, and all else stays as it is. -/
theorem Fits.program_body (hf : Fits code.code.length decoded ranges remarks.locals) :
    (body code decoded ranges remarks).program =
      { maxStack := code.maxStack
        maxLocals := code.maxLocals
        steps := decoded.map fun d =>
          ⟨remarks.lines.getD d.1 [], d.2.mapTargets fun t => rank decoded t.toNat⟩
        ranges := ranges.map fun r =>
          ⟨rank decoded r.start, rank decoded r.stop, rank decoded r.handler, r.catchType⟩
        locals := remarks.locals.map fun v =>
          ⟨v.name, v.descriptor, rank decoded v.start, rank decoded v.stop, v.index⟩ } := by
  have hplace : ∀ o ∈ boundaries code.code.length decoded, o ∈ named decoded ranges remarks.locals →
      position (body code decoded ranges remarks).code.instrs
        (labelOf (number (named decoded ranges remarks.locals)) o) = rank decoded o :=
    fun o hb hn => hf.position_labelOf hb hn
  rw [Body.program]
  congr 1
  · have hinstrs : (body code decoded ranges remarks).code.instrs = _ := instrs_body code decoded ranges remarks
    generalize position (body code decoded ranges remarks).code.instrs = place at hplace
    rw [hinstrs, numbered_entries hf.sane, map_map]
    refine map_congr_left fun d hd => ?_
    simp only [Function.comp_apply, mapTargets_mapTargets]
    congr 1
    refine mapTargets_congr fun t ht => ?_
    have ht := mem_targetsAsWritten.mpr ht
    exact hplace _ (mem_append_left _ (hf.targets d hd t ht)) (mem_named_of_target hd ht _)
  · rw [ranges_body, map_map]
    refine map_congr_left fun r hr => ?_
    have hend : ∀ o ∈ [r.start, r.stop, r.handler], _ :=
      fun o ho => hplace o (hf.ranges r hr o ho) (mem_named_of_range hr ho _)
    simp [hend r.start (by simp), hend r.stop (by simp), hend r.handler (by simp)]
  · rw [locals_body, map_map]
    refine map_congr_left fun v hv => ?_
    have hend : ∀ o ∈ [v.start, v.stop], _ :=
      fun o ho => hplace o (hf.locals v hv o ho) (mem_named_of_local hv ho)
    simp [hend v.start (by simp), hend v.stop (by simp)]

end Disassembly

end Untangle
