import Untangle.Proofs.Code.Disassembly

/-!
# Disassembly accepts exactly the well-tiled code

Code is disassembled if and only if instructions tile it, every target is the start of one of them, protected
ranges name starts or the end of the code and classes that can be read, and the tables of lines and variables
are whole. The body then holds the tiles in order. Each offset that is named has one label, which stands where
the offset says, and reading the code once more with these labels at hand meets no target without a label.
-/

namespace Untangle

open List Instruction

variable {bounds : Boundaries} {d : Nat × Decoded} {o : Nat}

namespace Disassembly

variable {bootstraps : List BootstrapEntry} {pool : Pool} {ds : List (Nat × Decoded)}

open Decoding

/-! ### What is asked of the code -/

/-- The attribute has a name, and if it is a table of lines or variables, the table is whole. -/
def Readable (pool : Pool) (a : Attribute) : Prop :=
  ∃ name, pool.name a.name = .ok name ∧
    (name = "LineNumberTable" → ∃ es, LineEntry.parseAll a.data = .ok es) ∧
    (name = "LocalVariableTable" → ∃ es, VariableEntry.parseAll a.data = .ok es)

/-- Instructions tile the code, and whatever names an offset of the code or a slot of the pool can name it. -/
structure WellTiled (code : CodeAttribute) (pool : Pool) (bootstraps : List BootstrapEntry)
    (ds : List (Nat × Decoded)) : Prop where
  tiled : Tiled pool bootstraps 0 code.code ds
  targets : ∀ d ∈ ds, ∀ t ∈ d.2.targets, ∃ e ∈ ds, t = e.1
  ranges : ∀ r ∈ code.ranges, ∀ o ∈ [r.start, r.stop, r.handler], o.toNat ∈ boundaries code.code.length ds
  catches : ∀ r ∈ code.ranges, r.catchType = 0 ∨ ∃ name, pool.className r.catchType = .ok name
  attributes : ∀ a ∈ code.attributes, Readable pool a

theorem exists_remark (done : Remarks) (a : Attribute) :
    (∃ next, remark pool bounds done a = .ok next) ↔ Readable pool a := by
  unfold remark Readable
  simp only [bind_eq_ok]
  constructor
  · rintro ⟨next, name, hname, h⟩
    refine ⟨name, hname, ?_, ?_⟩
    · rintro rfl
      obtain ⟨es, hes, -⟩ := bind_eq_ok.mp h
      exact ⟨es, hes⟩
    · rintro rfl
      obtain ⟨es, hes, -⟩ := bind_eq_ok.mp h
      exact ⟨es, hes⟩
  · rintro ⟨name, hname, hlines, hlocals⟩
    by_cases hl : name = "LineNumberTable"
    · subst hl
      obtain ⟨es, hes⟩ := hlines rfl
      exact ⟨_, _, hname, bind_eq_ok.mpr ⟨es, hes, rfl⟩⟩
    by_cases hv : name = "LocalVariableTable"
    · subst hv
      obtain ⟨es, hes⟩ := hlocals rfl
      exact ⟨_, _, hname, bind_eq_ok.mpr ⟨es, hes, rfl⟩⟩
    · refine ⟨done, name, hname, ?_⟩
      split
      · contradiction
      · contradiction
      · rfl

theorem exists_caught {slot : UInt16} :
    (∃ catchType, caught pool slot = .ok catchType) ↔ slot = 0 ∨ ∃ name, pool.className slot = .ok name := by
  unfold caught
  split
  case isTrue h => exact ⟨fun _ => .inl h, fun _ => ⟨none, rfl⟩⟩
  case isFalse h =>
    rw [or_iff_right h]
    constructor
    · rintro ⟨catchType, hc⟩
      obtain ⟨name, hname, -⟩ := map_eq_ok.mp hc
      exact ⟨name, hname⟩
    · rintro ⟨name, hname⟩
      exact ⟨some name, map_eq_ok.mpr ⟨name, hname, rfl⟩⟩

theorem exists_range {r : ProtectedRange} :
    (∃ o, range pool bounds r = .ok o) ↔
      (∀ o ∈ [r.start, r.stop, r.handler], bounds.contains o.toNat = true) ∧
        (r.catchType = 0 ∨ ∃ name, pool.className r.catchType = .ok name) := by
  simp only [range_eq_ok, ← exists_caught]
  constructor
  · rintro ⟨o, hb, catchType, hc, -⟩
    exact ⟨hb, catchType, hc⟩
  · rintro ⟨hb, catchType, hc⟩
    exact ⟨_, hb, catchType, hc, rfl⟩

/-- The starts of the tiles ascend and lie before the end of the code. -/
theorem lt_of_mem_tiles {code : List UInt8} (h : Tiled pool bootstraps 0 code ds) (hd : d ∈ ds) :
    d.1 < code.length := by
  have hasc := (decoded_ascending (instructions_eq_ok_iff.mpr h)).1
  exact (pairwise_append.mp hasc).2.2 d.1 (mem_map_of_mem hd) _ (mem_singleton_self _)

/-- A target passes the decoder's check if it is the start of a tile. -/
theorem checked_target {code : List UInt8} (h : Tiled pool bootstraps 0 code ds) (t : Int) :
    (0 ≤ t ∧ t < code.length ∧ (Std.TreeSet.ofList (code.length :: ds.map Prod.fst)).contains t.toNat = true) ↔
      ∃ e ∈ ds, t = e.1 := by
  rw [contains_bounds, boundaries, mem_append, mem_singleton]
  constructor
  · rintro ⟨hnonneg, hlt, hmem | hend⟩
    · obtain ⟨e, he, hfst⟩ := mem_map.mp hmem
      exact ⟨e, he, by omega⟩
    · omega
  · rintro ⟨e, he, rfl⟩
    have hlt := lt_of_mem_tiles h he
    exact ⟨by omega, by omega, .inl (by simpa using mem_map_of_mem (f := Prod.fst) he)⟩

/-- Disassembly succeeds exactly on well-tiled code. -/
theorem exists_disassemble :
    (∃ b, disassemble code pool bootstraps = .ok b) ↔ ∃ ds, WellTiled code pool bootstraps ds := by
  simp only [disassemble_eq_ok, instructions_eq_ok_iff]
  constructor
  · rintro ⟨b, ds, htiled, htargets, ranges, hranges, remarks, hremarks, -⟩
    have hread := exists_mapM_eq_ok.mp ⟨ranges, hranges⟩
    refine ⟨ds, htiled, fun d hd t ht => ?_, fun r hr o ho => ?_, fun r hr => ?_, ?_⟩
    · exact (checked_target htiled t).mp (htargets d hd t (mem_targetsAsWritten.mpr ht))
    · exact contains_bounds.mp ((exists_range.mp (hread r hr)).1 o ho)
    · exact (exists_range.mp (hread r hr)).2
    · exact (exists_foldlM_eq_ok exists_remark).mp ⟨remarks, hremarks⟩
  · rintro ⟨ds, h⟩
    have hread : ∀ r ∈ code.ranges, ∃ o,
        range pool (Std.TreeSet.ofList (code.code.length :: ds.map Prod.fst)) r = .ok o := fun r hr =>
      exists_range.mpr ⟨fun o ho => contains_bounds.mpr (h.ranges r hr o ho), h.catches r hr⟩
    obtain ⟨ranges, hranges⟩ := exists_mapM_eq_ok.mpr hread
    obtain ⟨remarks, hremarks⟩ := (exists_foldlM_eq_ok exists_remark).mpr h.attributes
    refine ⟨_, ds, h.tiled, fun d hd t ht => ?_, ranges, hranges, remarks, hremarks, rfl⟩
    exact (checked_target h.tiled t).mpr (h.targets d hd t (mem_targetsAsWritten.mp ht))

/-! ### What the body says -/

/-- The instruction with labels in the place of offsets. -/
def labelled (labels : Labels) (d : Nat × Decoded) : Instr := d.2.mapTargets fun t => labelOf labels t.toNat

/-- The label of offset `o` stands before the instruction that starts there, with nothing but lines between
the two. -/
def BoundBefore (labels : Labels) (ds : List (Nat × Decoded)) (is : List Instr) (o : Nat) : Prop :=
  ∃ before d after pre post, ∃ lines : List UInt16, ds = before ++ d :: after ∧ d.1 = o ∧
    is = pre ++ .label (labelOf labels o) :: (lines.map Instruction.line ++ labelled labels d :: post) ∧
    pre.filter Instruction.isReal = before.map (labelled labels) ∧
    post.filter Instruction.isReal = after.map (labelled labels)

/-- The label of offset `o` stands behind everything else, and `o` is the end of the code. -/
def BoundAtEnd (labels : Labels) (ds : List (Nat × Decoded)) (size : Nat) (is : List Instr) (o : Nat) : Prop :=
  o = size ∧ ∃ pre, is = pre ++ [.label (labelOf labels o)] ∧
    pre.filter Instruction.isReal = ds.map (labelled labels)

/-- Offset `o` has a label. -/
def hasLabel (labels : Labels) (t : Int) : Bool := decide (0 ≤ t) && labels.contains t.toNat

/-- Reads the code once more, now with a label for every offset, and fails at a target that has none. -/
def resweepFrom (pool : Pool) (bootstraps : List BootstrapEntry) (size : Nat) (labels : Labels)
    (lines : Std.TreeMap Nat (List UInt16)) : Nat → Cursor → Except Error (List Instr)
  | 0, _ => .ok []
  | steps + 1, s =>
    if s.rest.isEmpty then .ok []
    else do
      let (i, next) ← instruction pool bootstraps size s
      match i.targetsAsWritten.find? fun t => !hasLabel labels t with
      | some t => throw (.invalidBranchTarget s.offset t)
      | none =>
        return entries labels lines (s.offset, i) ++ (← resweepFrom pool bootstraps size labels lines steps next)

/-- The second sweep over all of the code. -/
def resweep (code : List UInt8) (pool : Pool) (bootstraps : List BootstrapEntry) (labels : Labels)
    (lines : Std.TreeMap Nat (List UInt16)) : Except Error (List Instr) := do
  let is ← resweepFrom pool bootstraps code.length labels lines code.length ⟨0, code⟩
  return is ++ (labels[code.length]?.map Instruction.label).toList

/-- The second sweep over tiles whose targets all have labels passes over each of them. -/
theorem resweepFrom_eq_ok {size steps : Nat} {code : List UInt8} {labels : Labels}
    (lines : Std.TreeMap Nat (List UInt16)) (h : Tiled pool bootstraps o code ds) (hsize : code.length ≤ size)
    (hsteps : code.length ≤ steps) (hlabels : ∀ d ∈ ds, ∀ t ∈ d.2.targets, hasLabel labels t = true) :
    resweepFrom pool bootstraps size labels lines steps ⟨o, code⟩ = .ok (ds.flatMap (entries labels lines)) := by
  induction h generalizing steps with
  | done o => cases steps <;> rfl
  | @tile o data rest i ds h _ ih =>
    rw [length_append] at hsize hsteps
    have hread : CodeReader.Reads (instruction pool bootstraps size) o data i := h.reads (by omega)
    obtain ⟨opcode, data, rfl⟩ := exists_cons_of_ne_nil h.ne_nil
    rw [length_cons] at hsteps
    obtain ⟨steps, rfl⟩ : ∃ n, steps = n + 1 := ⟨steps - 1, by omega⟩
    have hfound : i.targetsAsWritten.find? (fun t => !hasLabel labels t) = none := by
      rw [find?_eq_none]
      intro t ht
      simp [hlabels (o, i) mem_cons_self t (mem_targetsAsWritten.mp ht)]
    have hrest : resweepFrom pool bootstraps size labels lines steps ⟨o + (opcode :: data).length, rest⟩ =
        .ok (ds.flatMap (entries labels lines)) :=
      ih (by omega) (by omega) fun d hd => hlabels d (mem_cons_of_mem _ hd)
    refine bind_eq_ok.mpr ⟨(i, ⟨o + (opcode :: data).length, rest⟩), hread rest, ?_⟩
    simp only [hfound]
    exact bind_eq_ok.mpr ⟨_, hrest, rfl⟩

/-- The body says what the tiles say. The labels are those of the body's jumps and ranges; each stands at its
offset, and each stands once. -/
structure Transcribes (code : CodeAttribute) (pool : Pool) (bootstraps : List BootstrapEntry)
    (ds : List (Nat × Decoded)) (labels : Labels) (lines : Std.TreeMap Nat (List UInt16)) (b : Body) : Prop where
  reals : (b.nodes.filter Node.isReal).map Node.instr = ds.map (labelled labels)
  targets : ∀ d ∈ ds, ∀ t ∈ d.2.targets, BoundBefore labels ds (b.nodes.map Node.instr) t.toNat
  ranges : List.Forall₂ (fun (r : ProtectedRange) (r' : Range) => ∃ catchType, caught pool r.catchType = .ok catchType ∧
    r' = ⟨labelOf labels r.start.toNat, labelOf labels r.stop.toNat, labelOf labels r.handler.toNat, catchType⟩)
    code.ranges b.ranges
  bounds : ∀ r ∈ code.ranges, ∀ o ∈ [r.start, r.stop, r.handler],
    BoundBefore labels ds (b.nodes.map Node.instr) o.toNat ∨
      BoundAtEnd labels ds code.code.length (b.nodes.map Node.instr) o.toNat
  once : (labelsOf b.nodes).Nodup
  again : resweep code.code pool bootstraps labels lines = .ok (b.nodes.map Node.instr)

section Transcription

variable {code : CodeAttribute} {pool : Pool} {bootstraps : List BootstrapEntry} {ds : List (Nat × Decoded)}
  {ranges : List OffsetRange} {remarks : Remarks}

theorem filter_isReal_endLabel (labels : Labels) (o : Nat) :
    ((labels[o]?.map Instruction.label).toList : List Instr).filter Instruction.isReal = [] := by
  cases labels[o]? <;> rfl

/-- The label of an instruction that is named stands before it. -/
theorem boundBefore_body (hsane : ∀ d ∈ ds, Sane d.2) (ho : o ∈ ds.map Prod.fst)
    (hn : o ∈ named ds ranges remarks.locals) :
    BoundBefore (number (named ds ranges remarks.locals)) ds
      ((body code ds ranges remarks).nodes.map Node.instr) o := by
  obtain ⟨d, hd, rfl⟩ := mem_map.mp ho
  obtain ⟨before, after, hsplit⟩ := append_of_mem hd
  have hget := (numbered_number _).getElem?_eq hn
  rw [instrs_body]
  generalize number (named ds ranges remarks.locals) = labels at hget ⊢
  rw [hsplit, forall_mem_append, forall_mem_cons] at hsane
  refine ⟨before, d, after, before.flatMap (entries labels remarks.lines),
    after.flatMap (entries labels remarks.lines) ++ (labels[code.code.length]?.map label).toList,
    remarks.lines.getD d.1 [], hsplit, rfl, ?_, ?_, ?_⟩
  · rw [hsplit, flatMap_entries_at hget]
    simp [labelled]
  · exact filter_isReal_entries labels remarks.lines hsane.1
  · rw [filter_append, filter_isReal_endLabel, append_nil]
    exact filter_isReal_entries labels remarks.lines hsane.2.2

/-- The label of the end of the code stands behind everything else. -/
theorem boundAtEnd_body (hsane : ∀ d ∈ ds, Sane d.2) (hn : code.code.length ∈ named ds ranges remarks.locals) :
    BoundAtEnd (number (named ds ranges remarks.locals)) ds code.code.length
      ((body code ds ranges remarks).nodes.map Node.instr) code.code.length := by
  have hget := (numbered_number _).getElem?_eq hn
  refine ⟨rfl, _, ?_, filter_isReal_entries _ remarks.lines hsane⟩
  rw [instrs_body, hget]
  rfl

/-- Every target has a label. -/
theorem hasLabel_target (h : WellTiled code pool bootstraps ds) (locals : List OffsetVariable) (hd : d ∈ ds) {t : Int}
    (ht : t ∈ d.2.targets) : hasLabel (number (named ds ranges locals)) t = true := by
  obtain ⟨e, -, rfl⟩ := h.targets d hd t ht
  have hn : (e.1 : Int).toNat ∈ named ds ranges locals :=
    mem_named_of_target hd (mem_targetsAsWritten.mpr ht) locals
  have hsome := (numbered_number (named ds ranges locals)).named _ hn
  simpa [hasLabel] using hsome

/-- The body that is built from well-tiled code transcribes it. -/
theorem transcribes_body (h : WellTiled code pool bootstraps ds)
    (hf : Fits code.code.length ds ranges remarks.locals)
    (hranges : code.ranges.mapM (range pool (Std.TreeSet.ofList (code.code.length :: ds.map Prod.fst))) =
      .ok ranges) :
    Transcribes code pool bootstraps ds (number (named ds ranges remarks.locals)) remarks.lines
      (body code ds ranges remarks) where
  reals := reals_body code ranges remarks hf.sane
  targets d hd t ht := by
    have ht' := mem_targetsAsWritten.mpr ht
    exact boundBefore_body hf.sane (hf.targets d hd t ht') (mem_named_of_target hd ht' _)
  ranges := by
    rw [ranges_body, forall₂_map_right_iff]
    refine (mapM_eq_ok.mp hranges).imp fun r o hr => ?_
    obtain ⟨-, catchType, hc, rfl⟩ := range_eq_ok.mp hr
    exact ⟨catchType, hc, rfl⟩
  bounds r hr o ho := by
    obtain ⟨_, hr', hread⟩ := exists_of_forall₂_left (mapM_eq_ok.mp hranges) hr
    obtain ⟨-, catchType, -, rfl⟩ := range_eq_ok.mp hread
    have hn : o.toNat ∈ named ds ranges remarks.locals := by
      refine mem_named_of_range hr' ?_ _
      simpa using mem_map_of_mem ho
    rcases mem_append.mp (h.ranges r hr o ho) with hstart | hend
    · exact .inl (boundBefore_body hf.sane hstart hn)
    · rw [mem_singleton.mp hend] at hn ⊢
      exact .inr (boundAtEnd_body hf.sane hn)
  once := hf.nodup_labels
  again := by
    rw [instrs_body]
    refine bind_eq_ok.mpr ⟨_, resweepFrom_eq_ok remarks.lines h.tiled (le_refl _) (le_refl _) ?_, rfl⟩
    exact fun d hd t ht => hasLabel_target h remarks.locals hd ht

end Transcription

/-- Code is disassembled if and only if it is well tiled. The tiling is then the only one, and the body
transcribes it; in particular, reading the code a second time, with the labels that the first time gave, does
not fail. -/
theorem disassemble_iff_wellTiled (code : CodeAttribute) (pool : Pool) (bootstraps : List BootstrapEntry) :
    ((∃ b, disassemble code pool bootstraps = .ok b) ↔ ∃ ds, WellTiled code pool bootstraps ds) ∧
      ∀ b, disassemble code pool bootstraps = .ok b →
        ∃ ds labels lines, WellTiled code pool bootstraps ds ∧
          (∀ ds', Tiled pool bootstraps 0 code.code ds' → ds' = ds) ∧
          Transcribes code pool bootstraps ds labels lines b := by
  refine ⟨exists_disassemble, fun b hb => ?_⟩
  obtain ⟨ds, hds⟩ := exists_disassemble.mp ⟨b, hb⟩
  obtain ⟨ds', hds', htargets, _, hranges, remarks, hremarks, rfl⟩ := disassemble_eq_ok.mp hb
  obtain rfl := (instructions_eq_ok_iff.mp hds').unique hds.tiled
  have hfits := fits_of_checked hds' rfl htargets hranges hremarks
  exact ⟨ds', _, remarks.lines, hds, fun ds h => h.unique hds.tiled, transcribes_body hds hfits hranges⟩

/-- A switch after two bytes of padding, a wide load, a jump back, and a range up to the end of the code. -/
def windingCode : CodeAttribute where
  maxStack := 1
  maxLocals := 2
  code := [0x1a, 0xaa, 0, 0, 0, 0, 0, 26, 0, 0, 0, 0, 0, 0, 0, 0, 0, 0, 0, 19, 0xc4, 0x15, 0, 1, 0xa7, 0xff, 0xe8, 0xb1]
  ranges := [⟨0, 28, 27, 0⟩]
  attributes := []

def windingBody : Body where
  maxStack := 1
  maxLocals := 2
  code := .ofInstrs [.label 2, .load .int 0, .tableSwitch 0 0 0 [1], .label 1, .load .int 1, .jump 2, .label 0,
    .leave none, .label 3]
  ranges := [⟨2, 3, 0, none⟩]

theorem windingCode_transcribed :
    disassemble windingCode .empty [] = .ok windingBody ∧
      ∃ ds labels lines, WellTiled windingCode .empty [] ds ∧
        Transcribes windingCode .empty [] ds labels lines windingBody := by
  have hbody : disassemble windingCode .empty [] = .ok windingBody := by decide +kernel
  obtain ⟨ds, labels, lines, htiled, -, htranscribes⟩ :=
    (disassemble_iff_wellTiled windingCode .empty []).2 windingBody hbody
  exact ⟨hbody, ds, labels, lines, htiled, htranscribes⟩

end Disassembly

end Untangle
