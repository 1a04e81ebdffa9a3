import Mathlib.Data.List.Induction
import Untangle.Code.Disassembly
import Untangle.Proofs.Code.Decoding

/-!
# Disassembled bodies are well-formed

Offsets are numbered without a clash, every offset that is named has a label, and a label is put in
front of the instruction at its offset. Whatever a jump names is the start of an instruction, so an
instruction follows the label; ranges and variables may also name the end of the code.
-/

namespace Untangle

open List Instruction

variable {τ : Type} {b : Body} {l : Label} {o size : Nat} {i : Instruction τ} {remarks : Remarks} {v : OffsetVariable}
  {is : List Instr} {m : Labels} {offsets : List Nat} {done : Remarks} {d : Nat × Decoding.Decoded}

/-! ### A listing of given instructions -/

namespace Listing

theorem ofInstrs_strands (is : List Instr) :
    (ofInstrs is).strands = single (is.zipIdx.map fun (i, id) => ⟨id, some i⟩) := by
  cases is <;> rfl

theorem nodes_ofInstrs (is : List Instr) : (ofInstrs is).nodes = is.zipIdx.map fun (i, id) => ⟨id, some i⟩ :=
  nodes_of_strands (ofInstrs_strands is)

@[simp] theorem instrs_ofInstrs (is : List Instr) : (ofInstrs is).nodes.map Node.instr = is := by
  rw [nodes_ofInstrs, map_map]
  exact zipIdx_map_fst 0 is

/-- The label number to give out next is above every label in the listing. -/
theorem lt_foldl_labelAbove {next name : Label} (h : name < next ∨ .label name ∈ is) :
    name < is.foldl labelAbove next := by
  induction is generalizing next with
  | nil => simpa using h
  | cons i is ih =>
    refine ih ?_
    rcases h with h | h
    · left
      unfold labelAbove
      split
      · exact lt_of_lt_of_le h (le_max_left _ _)
      · exact h
    · rcases mem_cons.mp h with rfl | h
      · exact .inl (Nat.le_max_right next (name + 1))
      · exact .inr h

theorem sound_ofInstrs (is : List Instr) : (ofInstrs is).Sound := by
  refine sound_of_strands (ofInstrs_strands is) ?_ ?_ ?_ ?_
  · intro n hn
    obtain ⟨⟨i, id⟩, -, rfl⟩ := mem_map.mp hn
    rfl
  · have hids : (is.zipIdx.map fun (i, id) => (⟨id, some i⟩ : Node)).map Node.id = range' 0 is.length := by
      rw [map_map]
      exact zipIdx_map_snd 0 is
    rw [hids]
    exact nodup_range'
  · intro n hn
    obtain ⟨⟨i, id⟩, hi, rfl⟩ := mem_map.mp hn
    exact snd_lt_of_mem_zipIdx hi
  · intro _ hname
    obtain ⟨n, hn, hlabel⟩ := mem_labelsOf.mp hname
    obtain ⟨⟨i, id⟩, hi, rfl⟩ := mem_map.mp hn
    refine lt_foldl_labelAbove (.inr ?_)
    rw [← hlabel]
    exact fst_mem_of_mem_zipIdx hi

end Listing

/-- What has to be checked of a body that is written out. -/
theorem Body.wellFormed_ofInstrs (hcode : b.code = .ofInstrs is) (h : b.Linked)
    (hmaths : ∀ n ∈ b.nodes, n.instr.HasOpcode) : b.WellFormed :=
  ⟨h, hcode ▸ Listing.sound_ofInstrs is, hmaths⟩

/-! ### The nodes seen as instructions -/

theorem Instruction.tableFits_of_not_isReal (h : i.isReal = false) : i.TableFits := by
  cases i <;> simp_all [TableFits, isReal]

theorem Instruction.hasOpcode_of_not_isReal (h : i.isReal = false) : i.HasOpcode := by
  cases i <;> simp_all [HasOpcode, isReal]

theorem Instruction.mem_targetsAsWritten {t : τ} : t ∈ i.targetsAsWritten ↔ t ∈ i.targets := by
  cases i <;> simp [targetsAsWritten, targets, or_comm]

theorem labelsOf_eq (ns : List Node) : labelsOf ns = (ns.map Node.instr).filterMap Instruction.label? := by
  rw [filterMap_map]
  rfl

theorem map_instr_filter_isReal (ns : List Node) :
    (ns.filter Node.isReal).map Node.instr = (ns.map Node.instr).filter Instruction.isReal := by
  rw [filter_map]
  rfl

/-- Some instruction stands behind the label, said of the instructions alone. -/
theorem lands_of_instrs {ns : List Node} {pre post : List Instr} (h : ns.map Node.instr = pre ++ .label l :: post)
    (hr : ∃ i ∈ post, i.isReal = true) : Lands ns l := by
  obtain ⟨front, _, rfl, -, hrest⟩ := map_eq_append_iff.mp h
  obtain ⟨m, tail, rfl, hm, htail⟩ := map_eq_cons_iff.mp hrest
  obtain ⟨i, hi, hreal⟩ := hr
  rw [← htail] at hi
  obtain ⟨n, hn, rfl⟩ := mem_map.mp hi
  exact ⟨front, m, tail, rfl, hm, n, hn, hreal⟩

namespace Disassembly

variable {decoded : List (Nat × Decoding.Decoded)} {bootstraps : List BootstrapEntry} {bounds : Boundaries}
  {pool : Pool} {code : CodeAttribute}

/-! ### Numbering -/

/-- The offsets have labels, each its own. -/
structure Numbered (m : Labels) (offsets : List Nat) : Prop where
  named : ∀ o ∈ offsets, (m[o]?).isSome
  below : ∀ (o : Nat) (l : Label), m[o]? = some l → l < m.size
  injective : ∀ (o o' : Nat) (l : Label), m[o]? = some l → m[o']? = some l → o = o'

/-- Numbering one offset more leaves every label as it is. -/
theorem Numbered.step (h : Numbered m offsets) (o : Nat) : Numbered (m.insertIfNew o m.size) (offsets ++ [o]) := by
  have hget : ∀ (o' : Nat) (l : Label), (m.insertIfNew o m.size)[o']? = some l →
      m[o']? = some l ∨ o ∉ m ∧ o = o' ∧ l = m.size := by
    intro o' l hl
    rw [Std.TreeMap.getElem?_insertIfNew] at hl
    split at hl
    · rename_i hnew
      exact .inr ⟨hnew.2, by simpa using hnew.1, (Option.some.inj hl).symm⟩
    · exact .inl hl
  refine ⟨fun o' ho' => ?_, fun o' l hl => ?_, fun a b l ha hb => ?_⟩
  · rw [Std.TreeMap.isSome_getElem?_iff_mem, Std.TreeMap.mem_insertIfNew]
    rcases mem_append.mp ho' with ho' | ho'
    · exact .inr (Std.TreeMap.isSome_getElem?_iff_mem.mp (h.named o' ho'))
    · exact .inl (by simp [mem_singleton.mp ho'])
  · rw [Std.TreeMap.size_insertIfNew]
    rcases hget o' l hl with hl | ⟨hnew, -, rfl⟩
    · have hlt := h.below o' l hl
      split
      · exact hlt
      · exact Nat.lt_succ_of_lt hlt
    · rw [if_neg hnew]
      exact Nat.lt_succ_self _
  · rcases hget a l ha with ha | ⟨-, rfl, rfl⟩ <;> rcases hget b _ hb with hb | ⟨-, rfl, hl⟩
    · exact h.injective a b l ha hb
    · exact absurd (h.below a l ha) (hl ▸ lt_irrefl _)
    · exact absurd (h.below b _ hb) (lt_irrefl _)
    · rfl

theorem numbered_number (offsets : List Nat) : Numbered (number offsets) offsets := by
  induction offsets using reverseRecOn with
  | nil =>
    have he : ∀ o : Nat, (number [])[o]? = none := fun o => Std.TreeMap.getElem?_emptyc
    exact ⟨by simp, fun o l h => (by simp [he] at h), fun o o' l h => (by simp [he] at h)⟩
  | append_singleton offsets o ih =>
    have hstep : number (offsets ++ [o]) = (number offsets).insertIfNew o (number offsets).size := by
      simp [number]
    rw [hstep]
    exact ih.step o

/-- The label of an offset that has one. -/
theorem Numbered.getElem?_eq (h : Numbered m offsets) (ho : o ∈ offsets) : m[o]? = some (labelOf m o) := by
  obtain ⟨l, hl⟩ := Option.isSome_iff_exists.mp (h.named o ho)
  rw [labelOf, Std.TreeMap.getD_eq_getD_getElem?, hl]
  rfl

/-! ### What is checked -/

theorem checkTargets_eq_ok {origin : Nat} {ts : List Int} :
    checkTargets bounds size origin ts = .ok () ↔ ∀ t ∈ ts, 0 ≤ t ∧ t < size ∧ bounds.contains t.toNat = true := by
  induction ts with
  | nil => simp [checkTargets]
  | cons t ts ih =>
    rw [checkTargets, forall_mem_cons]
    split
    · rename_i ht
      rw [ih]
      exact ⟨fun h => ⟨ht, h⟩, And.right⟩
    · rename_i ht
      exact ⟨fun h => (by cases h), fun h => absurd h.1 ht⟩

theorem forIn_targets_eq_ok {u : Unit} :
    (forIn decoded () fun (x : Nat × Decoding.Decoded) _ => match x with
      | (offset, i) => do
        checkTargets bounds size offset i.targetsAsWritten
        pure (ForInStep.yield ())) = .ok u ↔
      ∀ d ∈ decoded, ∀ t ∈ d.2.targetsAsWritten, 0 ≤ t ∧ t < size ∧ bounds.contains t.toNat = true := by
  refine forIn_eq_ok fun (offset, i) => ?_
  cases hc : checkTargets bounds size offset i.targetsAsWritten with
  | ok u => exact .inl ⟨checkTargets_eq_ok.mp hc, by simp only [hc]; rfl⟩
  | error e =>
    refine .inr ⟨fun ht => ?_, e, by simp only [hc]; rfl⟩
    rw [checkTargets_eq_ok.mpr ht] at hc
    cases hc

/-- The class that a range catches. -/
def caught (pool : Pool) (slot : UInt16) : Except Error (Option String) :=
  if slot = 0 then .ok none else some <$> pool.className slot

/-- A range that is read lines up with instructions. -/
theorem range_eq_ok {r : ProtectedRange} {o : OffsetRange} :
    range pool bounds r = .ok o ↔
      (∀ offset ∈ [r.start, r.stop, r.handler], bounds.contains offset.toNat = true) ∧
        ∃ catchType, caught pool r.catchType = .ok catchType ∧
          o = ⟨r.start.toNat, r.stop.toNat, r.handler.toNat, catchType⟩ := by
  have heq : range pool bounds r = (do
      forIn [r.start, r.stop, r.handler] () fun offset _ =>
        if bounds.contains offset.toNat = true then pure (ForInStep.yield ())
        else do
          throw (Error.invalidBranchTarget r.handler.toNat offset.toNat)
          pure (ForInStep.yield ())
      let catchType ← caught pool r.catchType
      pure ⟨r.start.toNat, r.stop.toNat, r.handler.toNat, catchType⟩) := by
    unfold range caught
    split <;> rfl
  rw [heq, bind_eq_ok, Unique.exists_iff, bind_eq_ok]
  refine and_congr (forIn_eq_ok fun offset => ?_)
    (exists_congr fun _ => and_congr_right fun _ => ⟨fun h => (Except.ok.inj h).symm, fun h => congrArg _ h.symm⟩)
  by_cases hc : bounds.contains offset.toNat = true
  · exact .inl ⟨hc, if_pos hc⟩
  · exact .inr ⟨hc, _, if_neg hc⟩

/-- A variable entry that is kept lines up with instructions. -/
theorem offsetVariable?_eq_some {v : VariableEntry} {o : OffsetVariable} :
    offsetVariable? pool bounds v = some o ↔
      bounds.contains v.start.toNat = true ∧ bounds.contains (v.start.toNat + v.length.toNat) = true ∧
        ∃ name descriptor, pool.name v.name = .ok name ∧ pool.name v.descriptor = .ok descriptor ∧
          o = ⟨name, descriptor, v.start.toNat, v.start.toNat + v.length.toNat, v.index⟩ := by
  unfold offsetVariable?
  dsimp only
  split
  · rename_i hb
    rw [Bool.and_eq_true] at hb
    split
    · rename_i name descriptor hn hd
      constructor
      · intro h
        cases h
        exact ⟨hb.1, hb.2, name, descriptor, hn, hd, rfl⟩
      · rintro ⟨-, -, _, _, hn', hd', rfl⟩
        rw [hn] at hn'
        rw [hd] at hd'
        cases hn'
        cases hd'
        rfl
    · rename_i hno
      refine ⟨fun h => (by cases h), ?_⟩
      rintro ⟨-, -, name, descriptor, hn, hd, -⟩
      exact (hno name descriptor hn hd).elim
  · rename_i hb
    rw [Bool.and_eq_true] at hb
    exact ⟨fun h => (by cases h), fun h => absurd ⟨h.1, h.2.1⟩ hb⟩

/-- Reading an attribute adds only variables that line up with instructions. -/
theorem locals_of_remark {a : Attribute} (h : remark pool bounds done a = .ok remarks) (hv : v ∈ remarks.locals) :
    v ∈ done.locals ∨ bounds.contains v.start = true ∧ bounds.contains v.stop = true := by
  obtain ⟨_, -, h⟩ := bind_eq_ok.mp h
  split at h
  · obtain ⟨es, -, h⟩ := bind_eq_ok.mp h
    cases h
    exact .inl hv
  · obtain ⟨es, -, h⟩ := bind_eq_ok.mp h
    cases h
    rcases mem_append.mp hv with hv | hv
    · exact .inl hv
    · obtain ⟨e, -, he⟩ := mem_filterMap.mp hv
      obtain ⟨hstart, hstop, _, _, -, -, rfl⟩ := offsetVariable?_eq_some.mp he
      exact .inr ⟨hstart, hstop⟩
  · cases h
    exact .inl hv

theorem locals_of_remarks {attributes : List Attribute}
    (h : attributes.foldlM (remark pool bounds) done = .ok remarks) (hv : v ∈ remarks.locals) :
    v ∈ done.locals ∨ bounds.contains v.start = true ∧ bounds.contains v.stop = true := by
  induction attributes generalizing done with
  | nil =>
    cases h
    exact .inl hv
  | cons a attributes ih =>
    obtain ⟨_, hnext, h⟩ := bind_eq_ok.mp h
    rcases ih h with hv' | hv'
    · exact locals_of_remark hnext hv'
    · exact .inr hv'

/-! ### What is built -/

/-- The offsets at which instructions start, and the end of the code. -/
def boundaries (size : Nat) (decoded : List (Nat × Decoding.Decoded)) : List Nat :=
  decoded.map Prod.fst ++ [size]

/-- The offsets that instructions, ranges and variables name. -/
def named (decoded : List (Nat × Decoding.Decoded)) (ranges : List OffsetRange)
    (locals : List OffsetVariable) : List Nat :=
  decoded.flatMap (fun (_, i) => i.targetsAsWritten.map Int.toNat) ++
    ranges.flatMap (fun r => [r.start, r.stop, r.handler]) ++ locals.flatMap fun v => [v.start, v.stop]

/-- The offsets ascend, and every offset that is named lines up with an instruction; for ranges and
variables the end of the code will do. -/
structure Fits (size : Nat) (decoded : List (Nat × Decoding.Decoded)) (ranges : List OffsetRange)
    (locals : List OffsetVariable) : Prop where
  ascending : (boundaries size decoded).Pairwise (· < ·)
  sane : ∀ d ∈ decoded, Decoding.Sane d.2
  targets : ∀ d ∈ decoded, ∀ t ∈ d.2.targetsAsWritten, t.toNat ∈ decoded.map Prod.fst
  ranges : ∀ r ∈ ranges, ∀ o ∈ [r.start, r.stop, r.handler], o ∈ boundaries size decoded
  locals : ∀ v ∈ locals, ∀ o ∈ [v.start, v.stop], o ∈ boundaries size decoded

theorem contains_bounds :
    (Std.TreeSet.ofList (size :: decoded.map Prod.fst) : Boundaries).contains o = true ↔
      o ∈ boundaries size decoded := by
  rw [Std.TreeSet.contains_ofList, contains_iff_mem, boundaries, mem_append, mem_cons, mem_singleton]
  exact Or.comm

/-- Every step of disassembling, and what it gives. -/
theorem disassemble_eq_ok :
    disassemble code pool bootstraps = .ok b ↔
      ∃ decoded, Decoding.instructions pool bootstraps code.code.length code.code.length [] ⟨0, code.code⟩ =
          .ok decoded ∧
        let bounds := Std.TreeSet.ofList (code.code.length :: decoded.map Prod.fst)
        (∀ d ∈ decoded, ∀ t ∈ d.2.targetsAsWritten,
          0 ≤ t ∧ t < code.code.length ∧ bounds.contains t.toNat = true) ∧
        ∃ ranges, code.ranges.mapM (range pool bounds) = .ok ranges ∧
          ∃ remarks, code.attributes.foldlM (remark pool bounds) {} = .ok remarks ∧
            b = body code decoded ranges remarks := by
  unfold disassemble
  simp only [bind_eq_ok, forIn_targets_eq_ok]
  refine exists_congr fun decoded => and_congr_right fun _ => ?_
  constructor
  · rintro ⟨-, ht, ranges, hr, remarks, hm, h⟩
    cases h
    exact ⟨ht, ranges, hr, remarks, hm, rfl⟩
  · rintro ⟨ht, ranges, hr, remarks, hm, rfl⟩
    exact ⟨(), ht, ranges, hr, remarks, hm, rfl⟩

/-- What reading all instructions gives, from the start of the code. -/
theorem decoded_ascending {code : List UInt8}
    (h : Decoding.instructions pool bootstraps code.length code.length [] ⟨0, code⟩ = .ok decoded) :
    (boundaries code.length decoded).Pairwise (· < ·) ∧ ∀ d ∈ decoded, Decoding.Genuine pool bootstraps d.2 := by
  obtain ⟨hasc, hgenuine⟩ := (Decoding.instructions_eq_ok_iff.mp h).ascending
  refine ⟨pairwise_append.mpr ⟨hasc, by simp, fun o ho o' ho' => ?_⟩, fun d hd => (hgenuine d hd).1⟩
  obtain ⟨d, hd, rfl⟩ := mem_map.mp ho
  rw [mem_singleton.mp ho']
  simpa using (hgenuine d hd).2.2

/-- What was read and checked lines up. -/
theorem fits_of_checked {ranges : List OffsetRange}
    (hdecoded : Decoding.instructions pool bootstraps code.code.length code.code.length [] ⟨0, code.code⟩ = .ok decoded)
    (hbounds : bounds = Std.TreeSet.ofList (code.code.length :: decoded.map Prod.fst))
    (htargets : ∀ d ∈ decoded, ∀ t ∈ d.2.targetsAsWritten,
      0 ≤ t ∧ t < code.code.length ∧ bounds.contains t.toNat = true)
    (hranges : code.ranges.mapM (range pool bounds) = .ok ranges)
    (hremarks : code.attributes.foldlM (remark pool bounds) {} = .ok remarks) :
    Fits code.code.length decoded ranges remarks.locals := by
  subst hbounds
  obtain ⟨hasc, hgenuine⟩ := decoded_ascending hdecoded
  refine ⟨hasc, fun d hd => (hgenuine d hd).toSane, ?_, ?_, ?_⟩
  · intro d hd t ht
    obtain ⟨h0, hlt, hmem⟩ := htargets d hd t ht
    rcases mem_append.mp (contains_bounds.mp hmem) with hmem | hmem
    · exact hmem
    · have := mem_singleton.mp hmem
      omega
  · intro o ho offset hoffset
    obtain ⟨r, -, hread⟩ := exists_of_mem_mapM hranges ho
    obtain ⟨hb, c, -, rfl⟩ := range_eq_ok.mp hread
    simp only [mem_cons, not_mem_nil, or_false] at hoffset hb
    rcases hoffset with rfl | rfl | rfl
    · exact contains_bounds.mp (hb r.start (.inl rfl))
    · exact contains_bounds.mp (hb r.stop (.inr (.inl rfl)))
    · exact contains_bounds.mp (hb r.handler (.inr (.inr rfl)))
  · intro v hv offset hoffset
    rcases locals_of_remarks hremarks hv with hv | ⟨hstart, hstop⟩
    · cases hv
    · rcases mem_cons.mp hoffset with rfl | hoffset
      · exact contains_bounds.mp hstart
      · rw [mem_singleton.mp hoffset]
        exact contains_bounds.mp hstop

/-- Whatever a body is built from lines up. -/
theorem fits_of_disassemble (h : disassemble code pool bootstraps = .ok b) :
    ∃ decoded ranges remarks,
      Decoding.instructions pool bootstraps code.code.length code.code.length [] ⟨0, code.code⟩ = .ok decoded ∧
        Fits code.code.length decoded ranges remarks.locals ∧ b = body code decoded ranges remarks := by
  obtain ⟨decoded, hdecoded, htargets, ranges, hranges, remarks, hremarks, rfl⟩ := disassemble_eq_ok.mp h
  exact ⟨decoded, ranges, remarks, hdecoded, fits_of_checked hdecoded rfl htargets hranges hremarks, rfl⟩

section Fits

variable {code : CodeAttribute} {decoded : List (Nat × Decoding.Decoded)} {ranges : List OffsetRange}

/-- The instructions of the body, with labels and lines. -/
theorem instrs_body (code : CodeAttribute) (decoded : List (Nat × Decoding.Decoded)) (ranges : List OffsetRange)
    (remarks : Remarks) :
    (body code decoded ranges remarks).nodes.map Node.instr =
    decoded.flatMap (entries (number (named decoded ranges remarks.locals)) remarks.lines) ++
      ((number (named decoded ranges remarks.locals))[code.code.length]?.map Instruction.label).toList :=
  Listing.instrs_ofInstrs _

theorem ranges_body (code : CodeAttribute) (decoded : List (Nat × Decoding.Decoded))
    (ranges : List OffsetRange) (remarks : Remarks) :
    (body code decoded ranges remarks).ranges =
      let labels := number (named decoded ranges remarks.locals)
      ranges.map fun r =>
        ⟨labelOf labels r.start, labelOf labels r.stop, labelOf labels r.handler, r.catchType⟩ := rfl

theorem locals_body (code : CodeAttribute) (decoded : List (Nat × Decoding.Decoded))
    (ranges : List OffsetRange) (remarks : Remarks) :
    (body code decoded ranges remarks).locals =
      let labels := number (named decoded ranges remarks.locals)
      remarks.locals.map fun v =>
        ⟨v.name, v.descriptor, labelOf labels v.start, labelOf labels v.stop, v.index⟩ := rfl

/-- Labels stand at the offsets that have one, in order. -/
theorem labelsOf_body (hsane : ∀ d ∈ decoded, Decoding.Sane d.2) :
    labelsOf (body code decoded ranges remarks).nodes =
      (boundaries code.code.length decoded).filterMap
        ((number (named decoded ranges remarks.locals))[·]?) := by
  rw [labelsOf_eq, instrs_body, boundaries, filterMap_append, filterMap_append]
  generalize number (named decoded ranges remarks.locals) = labels
  congr 1
  · rw [filterMap_flatMap, filterMap_map, filterMap_eq_flatMap_toList]
    refine flatMap_congr fun d hd => ?_
    have hlines : ((remarks.lines.getD d.1 []).map line : List Instr).filterMap
        label? = [] := by
      rw [filterMap_map]
      exact filterMap_eq_nil_iff.mpr fun _ _ => rfl
    have hreal : (d.2.mapTargets fun t => labelOf labels t.toNat).label? = none :=
      label?_of_isReal (by rw [isReal_mapTargets]; exact (hsane d hd).isReal)
    simp only [entries, filterMap_append, hlines, filterMap_cons, hreal, Function.comp_apply]
    cases labels[d.1]? <;> rfl
  · rw [filterMap_eq_flatMap_toList _ [_], flatMap_singleton]
    cases labels[code.code.length]? <;> rfl

/-- Labels and lines aside, the entries are the instructions that were decoded. -/
theorem filter_isReal_entries (labels : Labels) (lines : Std.TreeMap Nat (List UInt16))
    (hsane : ∀ d ∈ decoded, Decoding.Sane d.2) :
    (decoded.flatMap (entries labels lines)).filter Instruction.isReal =
      decoded.map fun d => d.2.mapTargets fun t => labelOf labels t.toNat := by
  rw [filter_flatMap, ← flatMap_singleton' (decoded.map _), flatMap_map]
  refine flatMap_congr fun d hd => ?_
  have hlines : ((lines.getD d.1 []).map line : List Instr).filter isReal = [] := by
    simp [isReal]
  have hlabel : ((labels[d.1]?.map label).toList : List Instr).filter isReal = [] := by
    cases labels[d.1]? <;> rfl
  have hreal : (d.2.mapTargets fun t => labelOf labels t.toNat).isReal = true := by
    rw [isReal_mapTargets]
    exact (hsane d hd).isReal
  simp [entries, hlines, hlabel, hreal]

/-- The instructions that execute are those that were decoded. -/
theorem reals_body (code : CodeAttribute) (ranges : List OffsetRange) (remarks : Remarks)
    (hsane : ∀ d ∈ decoded, Decoding.Sane d.2) :
    ((body code decoded ranges remarks).nodes.filter Node.isReal).map Node.instr =
      decoded.map fun d => d.2.mapTargets fun t =>
        labelOf (number (named decoded ranges remarks.locals)) t.toNat := by
  rw [map_instr_filter_isReal, instrs_body, filter_append, filter_isReal_entries _ _ hsane]
  generalize number (named decoded ranges remarks.locals) = labels
  have hend : ((labels[code.code.length]?.map label).toList : List Instr).filter
      isReal = [] := by
    cases labels[code.code.length]? <;> rfl
  rw [hend, append_nil]

/-- The label of a boundary that is named is bound. -/
theorem mem_labelsOf_body (hsane : ∀ d ∈ decoded, Decoding.Sane d.2) (hb : o ∈ boundaries code.code.length decoded)
    (hn : o ∈ named decoded ranges remarks.locals) :
    labelOf (number (named decoded ranges remarks.locals)) o ∈
      labelsOf (body code decoded ranges remarks).nodes := by
  rw [labelsOf_body hsane]
  exact mem_filterMap.mpr ⟨o, hb, (numbered_number _).getElem?_eq hn⟩

/-- The entries of an instruction that has a label: the label, the lines that start there, and itself. -/
theorem flatMap_entries_at {labels : Labels} (h : labels[d.1]? = some l) (lines : Std.TreeMap Nat (List UInt16))
    (before after : List (Nat × Decoding.Decoded)) :
    (before ++ d :: after).flatMap (entries labels lines) =
      before.flatMap (entries labels lines) ++ .label l ::
        ((lines.getD d.1 []).map Instruction.line ++ d.2.mapTargets (fun t => labelOf labels t.toNat) ::
          after.flatMap (entries labels lines)) := by
  rw [flatMap_append, flatMap_cons, entries, h]
  simp

/-- Behind the label of an instruction that is named stands that instruction. -/
theorem lands_body (hsane : ∀ d ∈ decoded, Decoding.Sane d.2) (ho : o ∈ decoded.map Prod.fst)
    (hn : o ∈ named decoded ranges remarks.locals) :
    Lands (body code decoded ranges remarks).nodes
      (labelOf (number (named decoded ranges remarks.locals)) o) := by
  obtain ⟨d, hd, rfl⟩ := mem_map.mp ho
  obtain ⟨before, after, hsplit⟩ := append_of_mem hd
  have hget := (numbered_number _).getElem?_eq hn
  have hinstrs := instrs_body code decoded ranges remarks
  generalize number (named decoded ranges remarks.locals) = labels at hget hinstrs ⊢
  have hentries := flatMap_entries_at hget remarks.lines before after
  rw [← hsplit] at hentries
  rw [hentries, append_assoc] at hinstrs
  refine lands_of_instrs hinstrs ⟨d.2.mapTargets fun t => labelOf labels t.toNat, by simp, ?_⟩
  rw [isReal_mapTargets]
  exact (hsane d hd).isReal

/-- An entry of the body that executes something was decoded. -/
theorem instr_of_mem_body (hsane : ∀ d ∈ decoded, Decoding.Sane d.2) {n : Node}
    (hn : n ∈ (body code decoded ranges remarks).nodes) (hr : n.isReal = true) :
    ∃ d ∈ decoded, n.instr = d.2.mapTargets fun t =>
      labelOf (number (named decoded ranges remarks.locals)) t.toNat := by
  have hi := mem_map_of_mem (f := Node.instr) (mem_filter.mpr ⟨hn, hr⟩)
  rw [reals_body code ranges remarks hsane] at hi
  obtain ⟨d, hd, he⟩ := mem_map.mp hi
  exact ⟨d, hd, he.symm⟩

theorem mem_named_of_target (hd : d ∈ decoded) {t : Int} (ht : t ∈ d.2.targetsAsWritten)
    (locals : List OffsetVariable) : t.toNat ∈ named decoded ranges locals := by
  refine mem_append_left _ (mem_append_left _ ?_)
  exact mem_flatMap.mpr ⟨d, hd, mem_map_of_mem ht⟩

theorem mem_named_of_range {r : OffsetRange} (hr : r ∈ ranges) (ho : o ∈ [r.start, r.stop, r.handler])
    (locals : List OffsetVariable) : o ∈ named decoded ranges locals :=
  mem_append_left _ (mem_append_right _ (mem_flatMap.mpr ⟨r, hr, ho⟩))

theorem mem_named_of_local {locals : List OffsetVariable} (hv : v ∈ locals) (ho : o ∈ [v.start, v.stop]) :
    o ∈ named decoded ranges locals :=
  mem_append_right _ (mem_flatMap.mpr ⟨v, hv, ho⟩)

section

variable (hf : Fits code.code.length decoded ranges remarks.locals)

include hf

/-- The targets of the body's jumps are labels of instructions that are named. -/
theorem Fits.exists_of_target (hl : l ∈ targetsOf (body code decoded ranges remarks).nodes) :
    ∃ o ∈ decoded.map Prod.fst, o ∈ named decoded ranges remarks.locals ∧
      l = labelOf (number (named decoded ranges remarks.locals)) o := by
  obtain ⟨n, hn, hl⟩ := mem_targetsOf.mp hl
  have hreal : n.isReal = true := by
    by_contra hc
    rw [targets_of_not_isReal (Bool.eq_false_iff.mpr hc)] at hl
    cases hl
  obtain ⟨d, hd, he⟩ := instr_of_mem_body hf.sane hn hreal
  rw [he, targets_mapTargets] at hl
  obtain ⟨t, ht, rfl⟩ := mem_map.mp hl
  have ht := mem_targetsAsWritten.mpr ht
  exact ⟨t.toNat, hf.targets d hd t ht, mem_named_of_target hd ht _, rfl⟩

/-- Whatever the body refers to is the label of a boundary that is named. -/
theorem Fits.exists_of_referenced (hl : l ∈ (body code decoded ranges remarks).referenced) :
    ∃ o ∈ boundaries code.code.length decoded, o ∈ named decoded ranges remarks.locals ∧
      l = labelOf (number (named decoded ranges remarks.locals)) o := by
  rcases Body.mem_referenced.mp hl with hl | ⟨r, hr, hl⟩ | ⟨v, hv, hl⟩
  · obtain ⟨o, ho, hn, he⟩ := hf.exists_of_target hl
    exact ⟨o, mem_append_left _ ho, hn, he⟩
  · rw [ranges_body] at hr
    obtain ⟨r, hmem, rfl⟩ := mem_map.mp hr
    obtain ⟨o, ho, rfl⟩ : ∃ o ∈ [r.start, r.stop, r.handler],
        labelOf (number (named decoded ranges remarks.locals)) o = l := by
      simpa [eq_comm] using hl
    exact ⟨o, hf.ranges r hmem o ho, mem_named_of_range hmem ho _, rfl⟩
  · rw [locals_body] at hv
    obtain ⟨v, hmem, rfl⟩ := mem_map.mp hv
    obtain ⟨o, ho, rfl⟩ : ∃ o ∈ [v.start, v.stop],
        labelOf (number (named decoded ranges remarks.locals)) o = l := by
      simpa [eq_comm] using hl
    exact ⟨o, hf.locals v hmem o ho, mem_named_of_local hmem ho, rfl⟩

/-- Every label is bound once. -/
theorem Fits.nodup_labels : (labelsOf (body code decoded ranges remarks).nodes).Nodup := by
  have hnum := numbered_number (named decoded ranges remarks.locals)
  rw [labelsOf_body hf.sane]
  refine Nodup.filterMap (fun o o' l ho ho' => hnum.injective o o' l ho ho') ?_
  exact hf.ascending.imp ne_of_lt

/-- A body that is built from what lines up is well-formed if its last instruction ends it. -/
theorem Fits.wellFormed (hlast : ∀ d, decoded.getLast? = some d → d.2.fallsThrough = false) :
    (body code decoded ranges remarks).WellFormed := by
  refine { bound_once := ?_, bound := ?_, ends := ?_, lands := ?_, tables := ?_, sound := ?_, maths := ?_ }
  · exact hf.nodup_labels
  · intro l hl
    obtain ⟨o, hb, hn, rfl⟩ := hf.exists_of_referenced hl
    exact mem_labelsOf_body hf.sane hb hn
  · intro n hn
    have hr := congrArg getLast? (reals_body code ranges remarks hf.sane)
    rw [getLast?_map, hn, getLast?_map] at hr
    obtain ⟨d, hd, he⟩ := Option.map_eq_some_iff.mp hr.symm
    rw [← he, fallsThrough_mapTargets]
    exact hlast d hd
  · intro l hl
    obtain ⟨o, ho, hn, rfl⟩ := hf.exists_of_target hl
    exact lands_body hf.sane ho hn
  · intro n hn
    cases hr : n.isReal with
    | false => exact tableFits_of_not_isReal hr
    | true =>
      obtain ⟨d, hd, he⟩ := instr_of_mem_body hf.sane hn hr
      rw [he, tableFits_mapTargets]
      exact (hf.sane d hd).tableFits
  · exact Listing.sound_ofInstrs _
  · intro n hn
    cases hr : n.isReal with
    | false => exact hasOpcode_of_not_isReal hr
    | true =>
      obtain ⟨d, hd, he⟩ := instr_of_mem_body hf.sane hn hr
      rw [he, hasOpcode_mapTargets]
      exact (hf.sane d hd).hasOpcode

end

end Fits

/-- Code whose last instruction does not fall through is disassembled into a well-formed body. -/
theorem wellFormed_of_disassemble (h : disassemble code pool bootstraps = .ok b)
    (hdecoded : Decoding.instructions pool bootstraps code.code.length code.code.length [] ⟨0, code.code⟩ = .ok decoded)
    (hlast : ∀ d, decoded.getLast? = some d → d.2.fallsThrough = false) : b.WellFormed := by
  obtain ⟨_, _, _, hdecoded', hf, rfl⟩ := fits_of_disassemble h
  rw [hdecoded] at hdecoded'
  cases hdecoded'
  exact hf.wellFormed hlast

end Disassembly

end Untangle
