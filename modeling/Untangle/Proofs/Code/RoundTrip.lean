import Mathlib.Tactic.FinCases
import Untangle.Proofs.Code.Placement

/-!
# Disassembling undoes assembling

Whatever a linked body is assembled to is disassembled again, and to the same program: the same
instructions with the same targets, the same protected ranges and variables, and at each instruction the
last of its lines. Labels get new names, the keys of a switch are put in order, and a conditional jump that
does not reach its target in two bytes comes back as the opposite test over a jump.
-/

namespace Untangle

open List Body

variable {t : Label} {d : Nat × Decoded} {offset : Label → Nat} {rankOf : Nat → Nat}

/-! ### What assembling leaves -/

namespace Encoding

variable {p q r : Pool} {bootstraps : List BootstrapEntry}

theorem Writes.mono {c : Chunk} {i : Instr} (hq : q.Extends p) (h : Writes p bootstraps c i) :
    Writes q bootstraps c i := by
  cases i with
  | label | line | jump | callSub | branch | tableSwitch | lookupSwitch => exact h
  | _ =>
    obtain ⟨data, hdata, hs⟩ := h
    exact ⟨data, hdata, fun f pool o hpool => hs f pool o (hpool.trans hq)⟩

/-- Every chunk says what its instruction does, in the pool that all of them were interned into. -/
theorem Interned.writes {is : List Instr} {cs : List Chunk} (h : Interned p is cs r) (hp : p.Sound)
    (hr : ∀ i ∈ is, i.ResolvesIn p bootstraps) (hn : ∀ i ∈ is, i.KeptByNumber) :
    p.Grows r ∧ List.Forall₂ (fun i c => Writes r bootstraps c i) is cs := by
  induction h with
  | nil => exact ⟨hp.grows, .nil⟩
  | @cons p q r i is c cs hc _ ih =>
    obtain ⟨hq, hw⟩ := writes_chunk hp (hr i mem_cons_self) (hn i mem_cons_self) hc
    obtain ⟨hgrow, hall⟩ := ih hq.sound (fun j hj => (hr j (mem_cons_of_mem i hj)).mono hq.keeps)
      fun j hj => hn j (mem_cons_of_mem i hj)
    exact ⟨hq.trans hgrow, .cons (hw.mono hgrow.keeps) hall⟩

end Encoding

namespace Assembly

variable {name : Label} {z : Instr × Placed}

open Bytes Decoding Encoding Layout Disassembly

/-- The instructions of a body with the places that a layout gives them. -/
def placements (b : Body) (l : Layout) : List (Instr × Placed) := b.code.instrs.zip l.chunks

/-- What a body was assembled to: its instructions are laid out, and its tables are written. -/
structure Assembled (b : Body) (bootstraps : List BootstrapEntry) (l : Layout) (pool : Pool)
    (code : CodeAttribute) : Prop where
  instrs : (placements b l).map Prod.fst = b.code.instrs
  chunks : (placements b l).map Prod.snd = l.chunks
  laid : Laid pool bootstraps 0 (placements b l) l.size
  size_le : l.size ≤ 65535
  settled : l.Settled
  resolved : ∀ name ∈ b.referenced, resolve l.marks name = .ok (offsetOf l name)
  maxStack : code.maxStack = b.maxStack
  maxLocals : code.maxLocals = b.maxLocals
  bytes : code.code = l.chunks.flatMap (encoded (offsetOf l))
  ranges : ∃ entries, List.Forall₂ (WritesRange (offsetOf l) pool) b.ranges entries ∧
    code.ranges = entries.filterMap id
  tables : ∃ entries lineTable variableTable, List.Forall₂ (WritesVariable (offsetOf l) pool) b.locals entries ∧
    Tabled pool "LineNumberTable" LineEntry.bytesAll (lines l) lineTable ∧
    Tabled pool "LocalVariableTable" VariableEntry.bytesAll (entries.filterMap id) variableTable ∧
    code.attributes = lineTable ++ variableTable

variable {b : Body} {bootstraps : List BootstrapEntry} {l : Layout} {pool pool' : Pool} {code : CodeAttribute}

theorem marks_eq_some {offset : Nat} (h : resolve l.marks name = .ok offset) : l.marks[name]? = some offset := by
  unfold resolve at h
  split at h
  · rename_i hget
    cases h
    exact hget
  · cases h

theorem forall_instrs {P : Instr → Prop} (h : ∀ n ∈ b.nodes, P n.instr) : ∀ i ∈ b.code.instrs, P i := by
  intro i hi
  obtain ⟨n, hn, rfl⟩ := mem_map.mp hi
  exact h n hn

/-- What a linked body is assembled to. -/
theorem assembled_of_assemble (hb : b.Linked) (hn : ∀ n ∈ b.nodes, n.instr.KeptByNumber)
    (hr : ∀ n ∈ b.nodes, n.instr.ResolvesIn pool bootstraps) (hp : pool.Sound)
    (h : assemble b pool = .ok code pool') : ∃ l, Assembled b bootstraps l pool' code := by
  obtain ⟨_, _, hcs, h⟩ := Interning.bind_eq_ok.mp h
  obtain ⟨l, hof, hfits, hresolve, htarget⟩ := exists_layout hb hcs
  obtain ⟨_, hmade, hi⟩ := interned_of_chunks hcs
  subst hmade
  rw [Interning.lift_bind hof] at h
  dsimp only at h
  split at h
  case isTrue => cases h
  rename_i hsize
  have hbytes : l.chunks.mapM (bytes (resolve l.marks)) = .ok (l.chunks.map (encoded (offsetOf l))) :=
    mapM_eq_map fun c hc => bytes_eq fun t ht =>
      hresolve t (htarget c.chunk (hfits.chunks ▸ mem_map_of_mem hc) t ht)
  rw [hbytes] at h
  obtain ⟨_, _, hdata, h⟩ := Interning.bind_eq_ok.mp h
  cases hdata
  obtain ⟨rs, _, hrs, h⟩ := Interning.bind_eq_ok.mp h
  obtain ⟨vs, _, hvs, h⟩ := Interning.bind_eq_ok.mp h
  obtain ⟨lineTable, _, hlines, h⟩ := Interning.bind_eq_ok.mp h
  obtain ⟨variableTable, _, hvariables, h⟩ := Interning.bind_eq_ok.mp h
  cases h
  obtain ⟨hp₁, hwrites⟩ := hi.writes hp (forall_instrs hr) (forall_instrs hn)
  obtain ⟨hp₃, hranges⟩ := hp₁.sound.mapM (P := WritesRange (offsetOf l))
    (fun r hr p e q hp he => writesRange_of_range hp (fun name hname => hresolve name
      (mem_referenced.mpr (.inr (.inl ⟨r, hr, by simpa using hname⟩)))) he)
    (fun p q r e hq he => he.mono hq) hrs
  obtain ⟨hp₄, hlocals⟩ := hp₃.sound.mapM (P := WritesVariable (offsetOf l))
    (fun v hv p e q hp he => writesVariable_of_placed hp (fun name hname => marks_eq_some (hresolve name
      (mem_referenced.mpr (.inr (.inr ⟨v, hv, by simpa using hname⟩))))) he)
    (fun p q v e hq he => he.mono hq) hvs
  obtain ⟨hp₅, hlines⟩ := tabled_of_table hp₄.sound hlines
  obtain ⟨hp₆, hvariables⟩ := tabled_of_table hp₅.sound hvariables
  rw [← hfits.chunks, forall₂_map_right_iff] at hwrites
  obtain ⟨hlen, hzip⟩ := forall₂_iff_zip.mp hwrites
  have hchunks : (placements b l).map Prod.snd = l.chunks := map_snd_zip hlen.ge
  refine ⟨l, {
    instrs := map_fst_zip hlen.le
    chunks := hchunks
    laid := ⟨?_, fun z hz => (hzip hz).mono (hp₃.trans (hp₄.trans (hp₅.trans hp₆))).keeps⟩
    size_le := not_lt.mp hsize
    settled := hfits.settled
    resolved := hresolve
    maxStack := rfl
    maxLocals := rfl
    bytes := rfl
    ranges := ⟨rs, hranges.imp fun r e he => he.mono (hp₄.trans (hp₅.trans hp₆)).keeps, rfl⟩
    tables := ⟨vs, lineTable, variableTable, hlocals.imp fun v e he => he.mono (hp₅.trans hp₆).keeps,
      hlines.mono hp₆.keeps, hvariables, rfl⟩ }⟩
  rw [hchunks]
  exact hfits.consecutive

/-! ### What is read from it -/

theorem offset_le (h : Assembled b bootstraps l pool code) (hname : name ∈ b.referenced) :
    offsetOf l name ≤ l.size := by
  obtain ⟨p, hp, -, ho⟩ := resolve_eq_ok (h.resolved name hname)
  rw [← h.chunks] at hp
  have hle := (h.laid.consecutive.bounds hp).2
  omega

/-- The code is tiled by what the instructions are placed as. -/
theorem tiled_laid {first last : Nat} {zs : List (Instr × Placed)}
    (h : Laid pool bootstraps first zs last) (hlast : last ≤ 65535)
    (hfits : ∀ z ∈ zs, z.1.TableFits) (ht : ∀ z ∈ zs, ∀ t ∈ z.1.targets, offset t ≤ 65535)
    (hshort : ∀ z ∈ zs, ∀ t, z.2.chunk.target? = some t → z.2.wide = false →
      isFar ((offset t : Int) - z.2.offset) = false) :
    Tiled pool bootstraps first (zs.flatMap fun z => encoded offset z.2) (readAll offset zs) ∧
      first + (zs.flatMap fun z => encoded offset z.2).length = last := by
  induction zs generalizing first with
  | nil => exact ⟨.done first, h.consecutive⟩
  | cons z zs ih =>
    obtain ⟨rfl, hw, htail⟩ := laid_cons.mp h
    have hle := htail.consecutive.le
    rw [forall_mem_cons] at hfits ht hshort
    have hz : Tiled pool bootstraps z.2.offset (encoded offset z.2) _ :=
      tiled_encoded hw (.refl pool) hfits.1 (by omega) (by omega) ht.1 hshort.1
    obtain ⟨hrest, hend⟩ := ih htail hfits.2 ht.2 hshort.2
    rw [← length_encoded offset z.2] at hrest hend
    rw [flatMap_cons, length_append]
    exact ⟨hz.append hrest, by omega⟩

theorem label_of_mark (h : Writes pool bootstraps z.2.chunk z.1) (hc : z.2.chunk = .mark name) : z.1 = .label name := by
  obtain ⟨i, c, w, o⟩ := z
  cases hc
  cases i with
  | label n =>
    cases h
    rfl
  | line | jump | callSub | branch | tableSwitch | lookupSwitch => cases h
  | _ =>
    obtain ⟨_, hdata, -⟩ := h
    cases hdata

section

variable (h : Assembled b bootstraps l pool code) (hb : b.Linked)

include h hb

/-- A label that is bound once stands at its offset, and nowhere else. -/
theorem Assembled.exists_label (hname : name ∈ b.referenced) :
    ∃ ys z zs, placements b l = ys ++ z :: zs ∧ z.1 = .label name ∧ z.2.offset = offsetOf l name ∧
      .label name ∉ ys.map Prod.fst ∧ .label name ∉ zs.map Prod.fst := by
  obtain ⟨p, hp, hc, ho⟩ := resolve_eq_ok (h.resolved name hname)
  rw [← h.chunks] at hp
  obtain ⟨z, hz, rfl⟩ := mem_map.mp hp
  have hlabel := label_of_mark (h.laid.writes z hz) hc
  obtain ⟨ys, zs, hsplit⟩ := append_of_mem hz
  have hinstrs : b.nodes.map Node.instr = ys.map Prod.fst ++ .label name :: zs.map Prod.fst := by
    rw [← hlabel, ← map_cons, ← map_append, ← hsplit]
    exact h.instrs.symm
  have hcons : (Instruction.label name :: zs.map Prod.fst).filterMap Instruction.label? =
      name :: (zs.map Prod.fst).filterMap Instruction.label? := rfl
  have honce := hb.bound_once
  rw [labelsOf_eq, hinstrs, filterMap_append, hcons, nodup_append, nodup_cons] at honce
  refine ⟨ys, z, zs, hsplit, hlabel, ho, fun hmem => ?_, fun hmem => ?_⟩
  · exact honce.2.2 name (mem_filterMap.mpr ⟨_, hmem, rfl⟩) name mem_cons_self rfl
  · exact honce.2.1.1 (mem_filterMap.mpr ⟨_, hmem, rfl⟩)

/-- A label's offset has the rank of its position. -/
theorem Assembled.rank_offsetOf (hname : name ∈ b.referenced) :
    rank (readAll (offsetOf l) (placements b l)) (offsetOf l name) =
      Program.shifted (flags (placements b l)) (position b.code.instrs name) := by
  obtain ⟨_, z, _, hsplit, hz, ho, hfresh, -⟩ := h.exists_label hb hname
  have hlaid := h.laid
  rw [← h.instrs, ← ho]
  rw [hsplit] at hlaid ⊢
  exact hlaid.rank_label hz hfresh

/-- A label's offset is the start of an instruction, or the end of the code. -/
theorem Assembled.offsetOf_mem (hname : name ∈ b.referenced) :
    offsetOf l name ∈ boundaries l.size (readAll (offsetOf l) (placements b l)) := by
  obtain ⟨_, z, _, hsplit, -, ho, -⟩ := h.exists_label hb hname
  rw [← ho]
  exact h.laid.offset_mem _ (hsplit ▸ mem_append_right _ mem_cons_self)

/-- What a jump or a switch names is the start of an instruction. -/
theorem Assembled.target_mem (ht : t ∈ targetsOf b.nodes) :
    offsetOf l t ∈ (readAll (offsetOf l) (placements b l)).map Prod.fst := by
  obtain ⟨ys, z, zs, hsplit, -, ho, hys, hzs⟩ := h.exists_label hb (mem_referenced.mpr (.inl ht))
  obtain ⟨pre, m, post, hns, hm, n, hn, hreal⟩ := hb.lands t ht
  have hinstrs : ys.map Prod.fst ++ z.1 :: zs.map Prod.fst =
      pre.map Node.instr ++ .label t :: post.map Node.instr := by
    rw [← hm, ← map_cons, ← map_append, ← hsplit, h.instrs, ← map_cons, ← map_append]
    exact congrArg (map Node.instr) hns
  obtain ⟨-, -, hpost⟩ := (append_cons_inj_of_notMem hys hzs).mp hinstrs
  have hreal : ∃ y ∈ zs, y.1.isReal = true := by
    have hmem : n.instr ∈ zs.map Prod.fst := hpost ▸ mem_map_of_mem hn
    obtain ⟨y, hy, he⟩ := mem_map.mp hmem
    exact ⟨y, hy, he ▸ hreal⟩
  obtain ⟨_, -, hlaid⟩ := laid_append.mp (hsplit ▸ h.laid)
  rw [← ho, (laid_cons.mp hlaid).1, hsplit, readAll_append, map_append]
  obtain ⟨y, hy, hyr⟩ := hreal
  exact mem_append_right _ (hlaid.first_mem ⟨y, mem_cons_of_mem z hy, hyr⟩)

/-- A conditional jump is followed by an instruction. -/
theorem Assembled.next_mem (hz : z ∈ placements b l) (hs : isSpread z = true) :
    z.2.offset + 8 ∈ (readAll (offsetOf l) (placements b l)).map Prod.fst := by
  obtain ⟨ys, zs, hsplit⟩ := append_of_mem hz
  have hfalls : z.1.isReal = true ∧ z.1.fallsThrough = true := by
    obtain ⟨i, p⟩ := z
    cases i with
    | branch _ t => exact ⟨rfl, rfl⟩
    | _ => cases hs
  have hreal : ∃ y ∈ zs, y.1.isReal = true := by
    -- otherwise the jump would be the last instruction, which does not fall through
    by_contra hnone
    push Not at hnone
    have hlast : ((b.nodes.filter Node.isReal).map Node.instr).getLast? = some z.1 := by
      have hinstrs : b.nodes.map Node.instr = ys.map Prod.fst ++ z.1 :: zs.map Prod.fst := by
        rw [← map_cons, ← map_append, ← hsplit]
        exact h.instrs.symm
      have hrest : (zs.map Prod.fst).filter Instruction.isReal = [] := by
        refine filter_eq_nil_iff.mpr fun i hi => ?_
        obtain ⟨y, hy, rfl⟩ := mem_map.mp hi
        exact hnone y hy
      rw [map_instr_filter_isReal, hinstrs, filter_append, filter_cons_of_pos hfalls.1, hrest]
      simp
    rw [getLast?_map, Option.map_eq_some_iff] at hlast
    obtain ⟨n, hn, he⟩ := hlast
    have hends := hb.ends n hn
    rw [he, hfalls.2] at hends
    cases hends
  have hsplit' : placements b l = (ys ++ [z]) ++ zs := by rw [hsplit, append_assoc]; rfl
  obtain ⟨_, hyz, hlaid⟩ := laid_append.mp (hsplit' ▸ h.laid)
  rw [hyz.end_eq hs, hsplit', readAll_append, map_append]
  exact mem_append_right _ (hlaid.first_mem hreal)

end

/-- What is read back goes where the instruction goes, or to what follows it. -/
theorem readBack_targets (hd : d ∈ readBack offset z.2.wide z.2.offset z.1) {t : Int} (ht : t ∈ d.2.targets) :
    (∃ u ∈ z.1.targets, t = offset u) ∨ isSpread z = true ∧ t = ((z.2.offset + 8 : Nat) : Int) := by
  obtain ⟨i, c, w, o⟩ := z
  have hmap : ∀ i : Instr, t ∈ (i.keysInOrder.mapTargets fun u => (offset u : Int)).targets →
      ∃ u ∈ i.targets, t = offset u := by
    intro i ht
    rw [Instruction.targets_mapTargets] at ht
    obtain ⟨u, hu, rfl⟩ := mem_map.mp ht
    exact ⟨u, Instruction.mem_targets_keysInOrder.mp hu, rfl⟩
  cases i with
  | label | line => cases hd
  | branch _ u =>
    cases w with
    | false =>
      obtain rfl := mem_singleton.mp hd
      exact .inl (hmap _ ht)
    | true =>
      rcases mem_cons.mp hd with rfl | hd
      · obtain rfl := mem_singleton.mp ht
        exact .inr ⟨rfl, rfl⟩
      · obtain rfl := mem_singleton.mp hd
        obtain rfl := mem_singleton.mp ht
        exact .inl ⟨u, mem_singleton_self u, rfl⟩
  | _ =>
    obtain rfl := mem_singleton.mp hd
    exact .inl (hmap _ ht)

section

variable (h : Assembled b bootstraps l pool code)

include h

theorem Assembled.exists_node (hz : z ∈ placements b l) : ∃ n ∈ b.nodes, n.instr = z.1 := by
  have hmem : z.1 ∈ b.code.instrs := h.instrs ▸ mem_map_of_mem hz
  exact mem_map.mp hmem

/-- A line table has at most 65535 entries. -/
theorem Assembled.length_lines : (lines l).length ≤ 65535 := by
  have hsize := h.size_le
  rw [lines_eq, length_reverse]
  refine le_trans (length_foldl_addLine (pairwise_lineEntries (h.chunks ▸ h.laid.consecutive) hsize)
    fun e he => ?_) hsize
  obtain ⟨p, -, -, hlt, hstart⟩ := mem_lineEntries.mp he
  rw [hstart, toNat_ofNat16 (by omega)]
  exact hlt

/-- The lines that are read at an offset: of those that start there the last. -/
theorem Assembled.lines_at {o : Nat} (ho : o ≤ 65535) :
    (((lines l).filter fun e => (Std.TreeSet.ofList (l.size ::
        (readAll (offsetOf l) (placements b l)).map Prod.fst) : Boundaries).contains e.start.toNat).filter
        (·.start.toNat = o)).map LineEntry.line =
      (((lineEntries l.size ((placements b l).map Prod.snd)).filter (·.start.toNat = o)).map
        LineEntry.line).getLast?.toList := by
  have hsize := h.size_le
  have hpair := pairwise_lineEntries (h.chunks ▸ h.laid.consecutive : Consecutive 0 l.chunks l.size) hsize
  have hbounds : ∀ e ∈ lines l, (Std.TreeSet.ofList (l.size ::
      (readAll (offsetOf l) (placements b l)).map Prod.fst) : Boundaries).contains e.start.toNat = true := by
    intro e he
    rw [lines_eq, mem_reverse] at he
    obtain ⟨p, hp, -, hlt, hstart⟩ := mem_lineEntries.mp (mem_of_mem_foldl_addLine hpair he)
    rw [← h.chunks] at hp
    obtain ⟨z, hz, rfl⟩ := mem_map.mp hp
    rw [hstart, toNat_ofNat16 (by omega)]
    exact contains_bounds.mpr (h.laid.offset_mem _ hz)
  rw [filter_eq_self.mpr hbounds, lines_eq, h.chunks]
  exact filter_lineTable hpair ho

variable (hb : b.Linked)

include hb

/-- Every target that is read is the start of an instruction. -/
theorem Assembled.targets_mem (hd : d ∈ readAll (offsetOf l) (placements b l)) {t : Int} (ht : t ∈ d.2.targets) :
    ∃ o ∈ (readAll (offsetOf l) (placements b l)).map Prod.fst, t = (o : Int) := by
  obtain ⟨z, hz, hd⟩ := mem_flatMap.mp hd
  rcases readBack_targets hd ht with ⟨u, hu, rfl⟩ | ⟨hs, rfl⟩
  · obtain ⟨n, hn, he⟩ := h.exists_node hz
    exact ⟨offsetOf l u, h.target_mem hb (mem_targetsOf.mpr ⟨n, hn, he ▸ hu⟩), rfl⟩
  · exact ⟨z.2.offset + 8, h.next_mem hb hz hs, rfl⟩

/-- Places that are apart in the code are apart in the program, in the same order. -/
theorem Assembled.offsetOf_lt_iff {s : Label} (hs : s ∈ b.referenced) (ht : t ∈ b.referenced) :
    offsetOf l s < offsetOf l t ↔ position b.code.instrs s < position b.code.instrs t := by
  refine Iff.trans ?_ (Program.strictMono_shifted (flags (placements b l))).lt_iff_lt
  rw [← h.rank_offsetOf hb hs, ← h.rank_offsetOf hb ht]
  constructor
  · intro hlt
    rcases mem_append.mp (h.offsetOf_mem hb hs) with hmem | hend
    · exact rank_lt_rank hmem hlt
    · have hle := offset_le h ht
      have heq := mem_singleton.mp hend
      omega
  · intro hlt
    by_contra hge
    exact absurd (rank_le_rank (not_lt.mp hge)) (not_le.mpr hlt)

/-- The instructions that are read from the code. -/
theorem Assembled.instructions_eq :
    code.code.length = l.size ∧
      instructions pool bootstraps code.code.length code.code.length [] ⟨0, code.code⟩ =
        .ok (readAll (offsetOf l) (placements b l)) := by
  have hcode : code.code = (placements b l).flatMap fun z => encoded (offsetOf l) z.2 := by
    rw [h.bytes, ← h.chunks, flatMap_map]
  obtain ⟨htiled, hlen⟩ : Tiled pool bootstraps 0 code.code (readAll (offsetOf l) (placements b l)) ∧
      0 + code.code.length = l.size := by
    rw [hcode]
    refine tiled_laid h.laid h.size_le (fun z hz => ?_) (fun z hz t ht => ?_) fun z hz t ht hw => ?_
    · obtain ⟨n, hn, he⟩ := h.exists_node hz
      exact he ▸ hb.tables n hn
    · obtain ⟨n, hn, he⟩ := h.exists_node hz
      have hle := offset_le h (mem_referenced.mpr (.inl (mem_targetsOf.mpr ⟨n, hn, he ▸ ht⟩)))
      have hsize := h.size_le
      omega
    · obtain ⟨o, ho, hfar⟩ := h.settled z.2 (h.chunks ▸ mem_map_of_mem hz) t ht hw
      rw [offsetOf, Std.TreeMap.getD_eq_getD_getElem?, marks_eq_some ho]
      exact hfar
  exact ⟨by omega, instructions_eq_ok_iff.mpr htiled⟩

/-- The instructions that are read, with their lines, are the steps of the program. -/
theorem Assembled.steps_eq (lines : Nat → List UInt16)
    (hlines : ∀ o ≤ 65535, lines o = (((lineEntries l.size ((placements b l).map Prod.snd)).filter
      (·.start.toNat = o)).map LineEntry.line).getLast?.toList) :
    (readAll (offsetOf l) (placements b l)).map (fun d => (⟨lines d.1,
        d.2.mapTargets fun t => rank (readAll (offsetOf l) (placements b l)) t.toNat⟩ : Program.Step)) =
      (b.program.tidy.spread (flags (placements b l))).steps := by
  have hsize := h.size_le
  have hoffset : ∀ z ∈ placements b l, z.2.offset + z.2.size ≤ l.size :=
    fun z hz => (h.laid.consecutive.bounds (mem_map_of_mem hz)).2
  have hplace : ∀ z ∈ placements b l, ∀ t ∈ z.1.targets,
      rank (readAll (offsetOf l) (placements b l)) (offsetOf l t) =
        Program.shifted (flags (placements b l)) (position b.code.instrs t) := by
    intro z hz t ht
    obtain ⟨n, hn, he⟩ := h.exists_node hz
    exact h.rank_offsetOf hb (mem_referenced.mpr (.inl (mem_targetsOf.mpr ⟨n, hn, he ▸ ht⟩)))
  have hline : ∀ ys z zs, placements b l = ys ++ z :: zs → z.1.isReal = true →
      lines z.2.offset = (pending [] (ys.map Prod.fst)).getLast?.toList := by
    intro ys z zs hsplit hr
    have hle := hoffset z (hsplit ▸ mem_append_right _ mem_cons_self)
    have hlaid : Laid pool bootstraps 0 (ys ++ z :: zs) l.size := hsplit ▸ h.laid
    rw [hlines _ (by omega), hsplit, hlaid.lineEntries_at hsize hr]
  have hgap : ∀ z ∈ placements b l, isSpread z = true → lines (z.2.offset + 3) = [] := by
    intro z hz hs
    have hle := hoffset z hz
    have hw := size_of_isSpread (h.laid.writes z hz) hs
    rw [hlines _ (by omega), h.laid.lineEntries_gap hsize hz hs]
    rfl
  rw [h.laid.steps_eq hplace hline hgap [] (placements b l) rfl, h.instrs]
  simp only [Program.spread, Program.tidy, program, zipIdx_map, flatMap_map]
  rfl

end

theorem map_snd_numbered (before : List UInt16) (is : List Instr) :
    (numbered before is).map Prod.snd = is.filter (·.isReal) := by
  fun_induction numbered before is with
  | case1 => rfl
  | case2 before name rest ih => exact ih
  | case3 before number rest ih => exact ih
  | case4 before i rest hl hn ih =>
    have hr : i.isReal = true := by
      cases i with
      | label name => exact absurd rfl (hl name)
      | line number => exact absurd rfl (hn number)
      | _ => rfl
    rw [map_cons, ih, filter_cons_of_pos hr]

section

variable (h : Assembled b bootstraps l pool code)

include h

/-- Only conditional jumps are taken apart. -/
theorem Assembled.onlyBranches : b.program.OnlyBranches (flags (placements b l)) := by
  intro k hk
  rw [flags, getElem?_map, Option.map_eq_some_iff] at hk
  obtain ⟨z, hz, hs⟩ := hk
  have hinstr : ((numbered [] b.code.instrs).map Prod.snd)[k]? = some z.1 := by
    rw [map_snd_numbered, ← h.instrs, filter_map, getElem?_map]
    exact congrArg (Option.map Prod.fst) hz
  rw [getElem?_map, Option.map_eq_some_iff] at hinstr
  obtain ⟨x, hx, he⟩ := hinstr
  obtain ⟨cond, t, hbranch⟩ : ∃ cond t, z.1 = .branch cond t := by
    obtain ⟨i, p⟩ := z
    cases i with
    | branch cond t => exact ⟨cond, t, rfl⟩
    | _ => cases hs
  refine ⟨x.1, cond, position b.code.instrs t, ?_⟩
  simp only [program, getElem?_map, hx, Option.map_some, he, hbranch]
  rfl

variable (hb : b.Linked) (hrank : ∀ name ∈ b.referenced,
  rankOf (offsetOf l name) = Program.shifted (flags (placements b l)) (position b.code.instrs name))

include hb

include hrank in
/-- Ranges keep their place, but for those without code. -/
theorem Assembled.ranges_eq :
    (((b.ranges.map fun r => (⟨offsetOf l r.start, offsetOf l r.stop, offsetOf l r.handler, r.catchType⟩ :
        OffsetRange)).filter fun r => r.start < r.stop).map fun r =>
          (⟨rankOf r.start, rankOf r.stop, rankOf r.handler, r.catchType⟩ : OffsetRange)) =
      (b.program.tidy.spread (flags (placements b l))).ranges := by
  have href : ∀ r ∈ b.ranges, ∀ name ∈ [r.start, r.stop, r.handler], name ∈ b.referenced :=
    fun r hr name hname => mem_referenced.mpr (.inr (.inl ⟨r, hr, by simpa using hname⟩))
  simp only [Program.spread, Program.tidy, program, filter_map, map_map]
  have hfilter : b.ranges.filter ((fun r : OffsetRange => decide (r.start < r.stop)) ∘
        fun r => ⟨offsetOf l r.start, offsetOf l r.stop, offsetOf l r.handler, r.catchType⟩) =
      b.ranges.filter ((fun r : OffsetRange => decide (r.start < r.stop)) ∘
        fun r => ⟨position b.code.instrs r.start, position b.code.instrs r.stop, position b.code.instrs r.handler,
          r.catchType⟩) :=
    filter_congr fun r hr => decide_eq_decide.mpr
      (h.offsetOf_lt_iff hb (href r hr r.start (by simp)) (href r hr r.stop (by simp)))
  rw [hfilter]
  refine map_congr_left fun r hr => ?_
  have hr := (mem_filter.mp hr).1
  simp [hrank r.start (href r hr r.start (by simp)),
    hrank r.stop (href r hr r.stop (by simp)), hrank r.handler (href r hr r.handler (by simp))]

include hrank in
/-- Variables keep their place, but for those that end before they start. -/
theorem Assembled.locals_eq :
    (((b.locals.map fun v => (⟨v.name, v.descriptor, offsetOf l v.start, offsetOf l v.stop, v.index⟩ :
        OffsetVariable)).filter fun v => v.start ≤ v.stop).map fun v =>
          (⟨v.name, v.descriptor, rankOf v.start, rankOf v.stop, v.index⟩ : OffsetVariable)) =
      (b.program.tidy.spread (flags (placements b l))).locals := by
  have href : ∀ v ∈ b.locals, ∀ name ∈ [v.start, v.stop], name ∈ b.referenced :=
    fun v hv name hname => mem_referenced.mpr (.inr (.inr ⟨v, hv, by simpa using hname⟩))
  simp only [Program.spread, Program.tidy, program, filter_map, map_map]
  have hfilter : b.locals.filter ((fun v : OffsetVariable => decide (v.start ≤ v.stop)) ∘
        fun v => ⟨v.name, v.descriptor, offsetOf l v.start, offsetOf l v.stop, v.index⟩) =
      b.locals.filter ((fun v : OffsetVariable => decide (v.start ≤ v.stop)) ∘
        fun v => ⟨v.name, v.descriptor, position b.code.instrs v.start, position b.code.instrs v.stop, v.index⟩) := by
    refine filter_congr fun v hv => decide_eq_decide.mpr ?_
    have hlt := h.offsetOf_lt_iff hb (href v hv v.stop (by simp)) (href v hv v.start (by simp))
    dsimp only
    omega
  rw [hfilter]
  refine map_congr_left fun v hv => ?_
  have hv := (mem_filter.mp hv).1
  simp [hrank v.start (href v hv v.start (by simp)), hrank v.stop (href v hv v.stop (by simp))]

/-- The code is disassembled to the program that was assembled. -/
theorem Assembled.exists_disassemble (hlocals : b.locals.length ≤ 65535) :
    ∃ b', disassemble code pool bootstraps = .ok b' ∧
      b'.program = b.program.tidy.spread (flags (placements b l)) := by
  obtain ⟨hlen, hdecoded⟩ := h.instructions_eq hb
  have hsize := h.size_le
  obtain ⟨_, hranges, hcodeRanges⟩ := h.ranges
  obtain ⟨localEntries, _, _, hvars, hlineTable, hvarTable, hattrs⟩ := h.tables
  have hbound : ∀ name ∈ b.referenced, offsetOf l name ≤ 65535 ∧
      (Std.TreeSet.ofList (code.code.length :: (readAll (offsetOf l) (placements b l)).map Prod.fst) :
        Boundaries).contains (offsetOf l name) = true := by
    intro name hname
    have hle := offset_le h hname
    rw [hlen]
    exact ⟨by omega, contains_bounds.mpr (h.offsetOf_mem hb hname)⟩
  have htargets : ∀ d ∈ readAll (offsetOf l) (placements b l), ∀ t ∈ d.2.targetsAsWritten,
      0 ≤ t ∧ t < code.code.length ∧ (Std.TreeSet.ofList (code.code.length ::
        (readAll (offsetOf l) (placements b l)).map Prod.fst) : Boundaries).contains t.toNat = true := by
    intro d hd t ht
    obtain ⟨o, ho, rfl⟩ := h.targets_mem hb hd (Instruction.mem_targetsAsWritten.mp ht)
    obtain ⟨e, he, rfl⟩ := mem_map.mp ho
    have hlt := (h.laid.bounds he).2
    refine ⟨by omega, by omega, contains_bounds.mpr ?_⟩
    exact mem_append_left _ ho
  have hranges := ranges_read hranges fun r hr name hname =>
    hbound name (mem_referenced.mpr (.inr (.inl ⟨r, hr, by simpa using hname⟩)))
  rw [← hcodeRanges] at hranges
  have hentries : (localEntries.filterMap id).length ≤ 65535 := by
    have hle := length_filterMap_le id localEntries
    have heq := hvars.length_eq
    omega
  obtain ⟨remarks, hremarks, hlines, hremarkLocals⟩ := remarks_of_tables
    (Std.TreeSet.ofList (code.code.length :: (readAll (offsetOf l) (placements b l)).map Prod.fst))
    h.length_lines hentries hlineTable hvarTable
  rw [← hattrs] at hremarks
  rw [locals_read hvars fun v hv name hname => hbound name (mem_referenced.mpr (.inr (.inr
    ⟨v, hv, by simpa using hname⟩)))] at hremarkLocals
  refine ⟨_, disassemble_eq_ok.mpr ⟨_, hdecoded, htargets, _, hranges, remarks, hremarks, rfl⟩, ?_⟩
  have hsteps := h.steps_eq hb (fun o => remarks.lines.getD o []) fun o ho => by
    rw [hlines o, hlen]
    exact h.lines_at ho
  have hrank : ∀ name ∈ b.referenced, _ := fun name hname => h.rank_offsetOf hb hname
  rw [(fits_of_checked hdecoded rfl htargets hranges hremarks).program_body, hremarkLocals, hsteps,
    h.ranges_eq hb hrank, h.locals_eq hb hrank, h.maxStack, h.maxLocals]
  rfl

end

end Assembly

/-- Disassembling undoes assembling: what a linked body is assembled to is read again, in the pool that its
constants were interned into, and as the same program. -/
theorem disassemble_assemble (b : Body) (bootstraps : List BootstrapEntry) (pool pool' : Pool) (code : CodeAttribute)
    (hb : b.Linked) (hnumber : ∀ n ∈ b.nodes, n.instr.KeptByNumber) (hlocals : b.locals.length ≤ 65535)
    (hpool : pool.Sound) (hresolve : ∀ n ∈ b.nodes, n.instr.ResolvesIn pool bootstraps)
    (h : assemble b pool = .ok code pool') :
    ∃ b' wide, disassemble code pool' bootstraps = .ok b' ∧ b.program.OnlyBranches wide ∧
      b'.program = b.program.tidy.spread wide := by
  obtain ⟨l, hl⟩ := Assembly.assembled_of_assemble hb hnumber hresolve hpool h
  obtain ⟨b', hb', hprogram⟩ := hl.exists_disassemble hb hlocals
  exact ⟨b', Assembly.flags (Assembly.placements b l), hb', hl.onlyBranches, hprogram⟩

/-- Switches on a number, under protection. It has two lines at its first instruction, keys out of order and a
range that covers nothing. -/
def switchingBody : Body where
  maxStack := 2
  maxLocals := 1
  code := Listing.ofInstrs
    [.label 0, .line 7, .line 8, .push (.int 70000), .store .int 0, .load .int 0,
     .lookupSwitch 1 [(5, 1), (-2, 0)], .label 1, .plain 0x00, .leave none, .label 2]
  ranges := [⟨0, 1, 1, some "java/lang/Exception"⟩, ⟨2, 1, 0, none⟩]
  locals := [⟨"x", "I", 0, 2, 0⟩]

theorem switchingBody_linked : switchingBody.Linked := by decide

theorem switchingBody_assembles : (assembleInto switchingBody .empty).1.toOption.isSome = true := by
  have hinstrs : switchingBody.code.instrs =
      [.label 0, .line 7, .line 8, .push (.int 70000), .store .int 0, .load .int 0,
       .lookupSwitch 1 [(5, 1), (-2, 0)], .label 1, .plain 0x00, .leave none, .label 2] := rfl
  have hsorted : (([(5, 1), (-2, 0)] : List (Int32 × Label)).mergeSort fun a b => a.1 ≤ b.1) = [(-2, 0), (5, 1)] := by
    simp [mergeSort]
  -- sorting is by recursion on a measure, which the kernel does not open
  simp only [assembleInto, assemble, hinstrs, Encoding.chunks, Encoding.chunk, hsorted]
  decide +kernel

/-- A body that switches can be assembled, and is read back as the program that it stands for. -/
theorem switchingBody_disassemble_assemble :
    ∃ code pool, assemble switchingBody .empty = .ok code pool ∧
      ∃ b' wide, disassemble code pool [] = .ok b' ∧ switchingBody.program.OnlyBranches wide ∧
        b'.program = switchingBody.program.tidy.spread wide := by
  have hok := switchingBody_assembles
  cases h : assemble switchingBody .empty with
  | error e pool =>
    simp only [assembleInto, h] at hok
    cases hok
  | ok code pool =>
    refine ⟨code, pool, rfl, disassemble_assemble switchingBody [] .empty pool code switchingBody_linked ?_ (by decide)
      Pool.sound_empty ?_ h⟩
    · intro n hn
      fin_cases hn <;> trivial
    · intro n hn
      fin_cases hn <;> trivial

end Untangle
