import Mathlib.Data.List.Perm.Subperm
import Untangle.Proofs.Code.Assembly
import Untangle.Proofs.Code.Disassembly

/-!
# Tables come back from their attributes

The tables of source lines and of local variables are read back entry by entry, and so are protected
ranges. Of the lines that start at one offset the last is written; a range without code and a variable
that ends before it starts are not written.
-/

namespace Untangle

open List Bytes

variable {es : List LineEntry} {e : LineEntry} {p q : Pool} {α : Type} {n : Nat} {name : String}
  {attributes : List Attribute} {slot : UInt16} {r : Range} {entry : Option ProtectedRange} {v : Variable}

/-! ### Line entries -/

theorem LineEntry.read_bytes (e : LineEntry) (rest : List UInt8) : read (e.bytes ++ rest) = .ok (e, rest) := by
  simp only [read, bytes, bind, StateT.bind, Except.bind, append_assoc, Bytes.u16_be16]
  rfl

theorem LineEntry.parseAll_bytesAll (h : es.length ≤ 65535) : parseAll (bytesAll es) = .ok es :=
  Bytes.counted_count16 read_bytes h

theorem VariableEntry.read_bytes (e : VariableEntry) (rest : List UInt8) : read (e.bytes ++ rest) = .ok (e, rest) := by
  simp only [read, bytes, bind, StateT.bind, Except.bind, append_assoc, Bytes.u16_be16]
  rfl

theorem VariableEntry.parseAll_bytesAll {es : List VariableEntry} (h : es.length ≤ 65535) :
    parseAll (bytesAll es) = .ok es :=
  Bytes.counted_count16 read_bytes h

namespace Assembly

/-- The table entry of a source line, none if no code follows. -/
def entryOfLine (size : Nat) (p : Placed) : Option LineEntry :=
  match p.chunk with
  | .line number => if p.offset < size then some ⟨UInt16.ofNat p.offset, number⟩ else none
  | _ => none

theorem entryOfLine_eq_some {size : Nat} {p : Placed} :
    entryOfLine size p = some e ↔ p.chunk = .line e.line ∧ p.offset < size ∧ e.start = UInt16.ofNat p.offset := by
  unfold entryOfLine
  cases p.chunk with
  | line =>
    by_cases hlt : p.offset < size
    · simp only [hlt, if_true, true_and, Option.some.injEq, Chunk.line.injEq]
      constructor
      · rintro rfl
        exact ⟨rfl, rfl⟩
      · rintro ⟨rfl, he⟩
        rw [← he]
    · simp [hlt]
  | _ => simp

/-- The source lines of placed chunks, with the offsets where they start. -/
def lineEntries (size : Nat) (ps : List Placed) : List LineEntry := ps.filterMap (entryOfLine size)

theorem lines_eq (l : Layout) : lines l = ((lineEntries l.size l.chunks).foldl addLine []).reverse := by
  rw [lines, lineEntries, foldl_filterMap]
  congr 2
  funext done p
  unfold entryOfLine
  cases p.chunk with
  | line =>
    by_cases h : p.offset < l.size
    · simp [if_pos h]
    · simp [if_neg h]
  | _ => rfl

/-- A line that is added takes the place of those that start where it does. -/
theorem addLine_eq {done : List LineEntry}
    (h : ∀ last before, done = last :: before → last.start = e.start → before.filter (·.start = e.start) = [])
    (hne : ∀ last before, done = last :: before → last.start ≠ e.start → done.filter (·.start = e.start) = []) :
    ∃ rest, addLine done e = e :: rest ∧ rest.filter (·.start = e.start) = [] ∧
      ∀ s ≠ e.start, rest.filter (·.start = s) = done.filter (·.start = s) := by
  cases done with
  | nil => exact ⟨[], rfl, rfl, fun _ _ => rfl⟩
  | cons last before =>
    by_cases hs : last.start = e.start
    · refine ⟨before, by rw [addLine, if_pos hs], h last before rfl hs, fun s hne => ?_⟩
      rw [filter_cons_of_neg (by rw [hs]; simpa using hne.symm)]
    · exact ⟨last :: before, by rw [addLine, if_neg hs], hne last before rfl hs, fun _ _ => rfl⟩

section

variable (h : es.Pairwise fun e f => e.start ≤ f.start)

include h

/-- Of the entries that start at one offset the last is kept, and the last of all is in front. -/
theorem foldl_addLine :
    (es.foldl addLine []).head? = es.getLast? ∧
      ∀ s, (es.foldl addLine []).filter (·.start = s) = (es.filter (·.start = s)).getLast?.toList := by
  induction es using reverseRecOn with
  | nil => simp
  | append_singleton es e ih =>
    rw [pairwise_append] at h
    obtain ⟨hhead, hfilter⟩ := ih h.1
    rw [foldl_append, foldl_cons, foldl_nil]
    generalize es.foldl addLine [] = done at hhead hfilter
    obtain ⟨rest, hadd, hnone, hsame⟩ : ∃ rest, addLine done e = e :: rest ∧
        rest.filter (·.start = e.start) = [] ∧
        ∀ s ≠ e.start, rest.filter (·.start = s) = done.filter (·.start = s) := by
      refine addLine_eq (fun last before hdone hs => ?_) fun last before hdone hs => ?_
      · have hkept := hfilter e.start
        rw [hdone, filter_cons_of_pos (by simpa using hs)] at hkept
        have hlen := congrArg length hkept
        have hle : ((es.filter (·.start = e.start)).getLast?.toList).length ≤ 1 := by
          cases (es.filter (·.start = e.start)).getLast? <;> simp
        rw [← hlen, length_cons] at hle
        exact eq_nil_of_length_eq_zero (by omega)
      · -- the last entry starts before this one, so all of them do
        rw [hfilter, filter_eq_nil_iff.mpr]
        · rfl
        intro f hf
        rw [decide_eq_true_eq]
        intro heq
        rw [hdone] at hhead
        obtain ⟨_, rfl⟩ := getLast?_eq_some_iff.mp hhead.symm
        have hle : f.start ≤ last.start := by
          rcases mem_append.mp hf with hf | hf
          · exact (pairwise_append.mp h.1).2.2 f hf last (mem_singleton_self last)
          · rw [mem_singleton.mp hf]
            exact UInt16.le_refl _
        have hlast : last.start ≤ e.start := h.2.2 last (by simp) e (mem_singleton_self e)
        rw [heq] at hle
        exact hs (UInt16.le_antisymm hlast hle)
    rw [hadd]
    refine ⟨by simp, fun s => ?_⟩
    rw [filter_append]
    by_cases hs : e.start = s
    · subst hs
      rw [filter_cons_of_pos (by simp), hnone]
      simp
    · rw [filter_cons_of_neg (by simpa using hs), hsame s (symm hs), hfilter,
        filter_cons_of_neg (by simpa using hs), filter_nil, append_nil]

theorem mem_of_mem_foldl_addLine (he : e ∈ es.foldl addLine []) : e ∈ es := by
  have hf : e ∈ (es.foldl addLine []).filter (·.start = e.start) := mem_filter.mpr ⟨he, by simp⟩
  rw [(foldl_addLine h).2, Option.mem_toList] at hf
  exact (mem_filter.mp (mem_of_getLast? hf)).1

/-- The line table has at most one entry for each offset. -/
theorem length_foldl_addLine (hn : ∀ e ∈ es, e.start.toNat < n) : (es.foldl addLine []).length ≤ n := by
  obtain ⟨-, hfilter⟩ := foldl_addLine h
  have hone : ((es.foldl addLine []).map LineEntry.start).Nodup := by
    refine nodup_iff_count_le_one.mpr fun s => ?_
    have heq : ((es.foldl addLine []).map LineEntry.start).count s =
        ((es.foldl addLine []).filter (·.start = s)).length := by
      rw [count, countP_map, countP_eq_length_filter]
      rfl
    rw [heq, hfilter]
    cases (es.filter (·.start = s)).getLast? <;> simp
  have hnodup : ((es.foldl addLine []).map fun e => e.start.toNat).Nodup := by
    have hmap := hone.map fun _ _ => UInt16.toNat_inj.mp
    rwa [map_map] at hmap
  have hsub : ((es.foldl addLine []).map fun e => e.start.toNat) ⊆ List.range n := by
    intro o ho
    obtain ⟨e, he, rfl⟩ := mem_map.mp ho
    exact mem_range.mpr (hn e (mem_of_mem_foldl_addLine h he))
  have hlen := (subperm_of_subset hnodup hsub).length_le
  rwa [length_map, length_range] at hlen

end

/-- Of the lines that start at an offset the table has the last. -/
theorem filter_lineTable (h : es.Pairwise fun e f => e.start ≤ f.start) {o : Nat} (ho : o ≤ 65535) :
    ((es.foldl addLine []).reverse.filter (·.start.toNat = o)).map LineEntry.line =
      ((es.filter (·.start.toNat = o)).map LineEntry.line).getLast?.toList := by
  have heq : (fun e : LineEntry => decide (e.start.toNat = o)) = fun e => decide (e.start = UInt16.ofNat o) := by
    funext e
    rw [decide_eq_decide, ← UInt16.toNat_inj, toNat_ofNat16 ho]
  rw [heq, filter_reverse, (foldl_addLine h).2, getLast?_map]
  cases (es.filter (·.start = UInt16.ofNat o)).getLast? <;> rfl

/-! ### Attributes -/

/-- The attributes are what a table is written as: none for a table without entries. -/
def Tabled {α : Type} (pool : Pool) (name : String) (data : List α → List UInt8) (es : List α)
    (attributes : List Attribute) : Prop :=
  es = [] ∧ attributes = [] ∨ ∃ slot, pool.name slot = .ok name ∧ attributes = [⟨slot, data es⟩]

theorem tabled_of_table {data : List α → List UInt8} {es : List α} (hp : p.Sound)
    (h : table name data es p = .ok attributes q) : p.Grows q ∧ Tabled q name data es attributes := by
  unfold table at h
  split at h
  case isTrue he =>
    cases h
    exact ⟨hp.grows, .inl ⟨isEmpty_iff.mp he, rfl⟩⟩
  case isFalse =>
    obtain ⟨slot, r, hs, h⟩ := Interning.bind_eq_ok.mp h
    cases h
    obtain ⟨hq, hname⟩ := hp.internName hs
    exact ⟨hq, .inr ⟨slot, hname, rfl⟩⟩

theorem Tabled.mono {data : List α → List UInt8} {es : List α} (h : Tabled p name data es attributes)
    (hq : q.Extends p) : Tabled q name data es attributes := by
  rcases h with h | ⟨slot, hname, h⟩
  · exact .inl h
  · exact .inr ⟨slot, Pool.stable_name slot p q name hq hname, h⟩

end Assembly

namespace Disassembly

/-- Lines by offset, as they are collected from the entries of a table. -/
theorem getD_foldl_insert (es : List LineEntry) (m : Std.TreeMap Nat (List UInt16)) (o : Nat) :
    (es.foldl (fun m e => m.insert e.start.toNat (m.getD e.start.toNat [] ++ [e.line])) m).getD o [] =
      m.getD o [] ++ (es.filter (·.start.toNat = o)).map LineEntry.line := by
  induction es generalizing m with
  | nil => simp
  | cons e es ih =>
    rw [foldl_cons, ih, Std.TreeMap.getD_insert]
    by_cases h : e.start.toNat = o
    · subst h
      simp
    · rw [filter_cons_of_neg (by simpa using h)]
      simp [h]

variable {pool : Pool} (bounds : Boundaries)

theorem remark_lines (done : Remarks) (hname : pool.name slot = .ok "LineNumberTable") (hlen : es.length ≤ 65535) :
    ∃ lines, remark pool bounds done ⟨slot, LineEntry.bytesAll es⟩ = .ok { done with lines } ∧
      ∀ o, lines.getD o [] = done.lines.getD o [] ++
        ((es.filter fun e => bounds.contains e.start.toNat).filter (·.start.toNat = o)).map LineEntry.line := by
  refine ⟨_, ?_, fun o => getD_foldl_insert _ done.lines o⟩
  simp only [remark, hname, LineEntry.parseAll_bytesAll hlen]
  rfl

theorem remark_locals (done : Remarks) {es : List VariableEntry} (hname : pool.name slot = .ok "LocalVariableTable")
    (hlen : es.length ≤ 65535) :
    remark pool bounds done ⟨slot, VariableEntry.bytesAll es⟩ =
      .ok { done with locals := done.locals ++ es.filterMap (offsetVariable? pool bounds) } := by
  simp only [remark, hname, VariableEntry.parseAll_bytesAll hlen]
  rfl

/-- Both tables are read back from the attributes they were written as. -/
theorem remarks_of_tables {vs : List VariableEntry} {lineTable variableTable : List Attribute}
    (hes : es.length ≤ 65535) (hvs : vs.length ≤ 65535)
    (hl : Assembly.Tabled pool "LineNumberTable" LineEntry.bytesAll es lineTable)
    (hv : Assembly.Tabled pool "LocalVariableTable" VariableEntry.bytesAll vs variableTable) :
    ∃ remarks, (lineTable ++ variableTable).foldlM (remark pool bounds) {} = .ok remarks ∧
      (∀ o, remarks.lines.getD o [] =
        ((es.filter fun e => bounds.contains e.start.toNat).filter (·.start.toNat = o)).map LineEntry.line) ∧
      remarks.locals = vs.filterMap (offsetVariable? pool bounds) := by
  obtain ⟨first, hfirst, hlines, hlocals⟩ : ∃ first, lineTable.foldlM (remark pool bounds) {} = .ok first ∧
      (∀ o, first.lines.getD o [] =
        ((es.filter fun e => bounds.contains e.start.toNat).filter (·.start.toNat = o)).map LineEntry.line) ∧
      first.locals = [] := by
    rcases hl with ⟨rfl, rfl⟩ | ⟨slot, hname, rfl⟩
    · exact ⟨{}, rfl, by simp, rfl⟩
    · obtain ⟨_, hr, hlines⟩ := remark_lines bounds {} hname hes
      refine ⟨_, by rw [foldlM_cons, hr]; rfl, fun o => ?_, rfl⟩
      rw [hlines]
      simp
  rw [foldlM_append, hfirst]
  rcases hv with ⟨rfl, rfl⟩ | ⟨slot, hname, rfl⟩
  · exact ⟨first, rfl, hlines, by rw [hlocals]; rfl⟩
  · refine ⟨{ first with locals := vs.filterMap (offsetVariable? pool bounds) }, ?_, hlines, rfl⟩
    have hr := remark_locals bounds first hname hvs
    rw [hlocals] at hr
    have hstep : [(⟨slot, VariableEntry.bytesAll vs⟩ : Attribute)].foldlM (remark pool bounds) first =
        .ok { first with locals := vs.filterMap (offsetVariable? pool bounds) } := by
      rw [foldlM_cons, hr]
      rfl
    exact hstep

end Disassembly

/-! ### Ranges and variables -/

/-- The table entry of a range, none if it covers no code. -/
def Assembly.WritesRange (offset : Label → Nat) (pool : Pool) (r : Range) (entry : Option ProtectedRange) : Prop :=
  if offset r.start < offset r.stop then
    ∃ slot, Disassembly.caught pool slot = .ok r.catchType ∧
      entry = some ⟨UInt16.ofNat (offset r.start), UInt16.ofNat (offset r.stop), UInt16.ofNat (offset r.handler), slot⟩
  else entry = none

/-- The table entry of a variable, none if it ends before it starts. -/
def Assembly.WritesVariable (offset : Label → Nat) (pool : Pool) (v : Variable) (entry : Option VariableEntry) : Prop :=
  if offset v.start ≤ offset v.stop then
    ∃ name descriptor, pool.name name = .ok v.name ∧ pool.name descriptor = .ok v.descriptor ∧
      entry = some ⟨UInt16.ofNat (offset v.start), UInt16.ofNat (offset v.stop - offset v.start), name, descriptor,
        v.index⟩
  else entry = none

theorem Disassembly.stable_caught (slot : UInt16) : Pool.Stable fun p => caught p slot := by
  unfold caught
  split
  · exact Pool.stable_const _
  · exact (Pool.stable_className slot).bind fun name => Pool.stable_const (.ok (some name))

namespace Assembly

open Disassembly

variable {offset : Label → Nat}

theorem writesRange_of_range {resolve : Label → Except Error Nat} (hp : p.Sound)
    (hr : ∀ l ∈ [r.start, r.stop, r.handler], resolve l = .ok (offset l)) (h : range resolve r p = .ok entry q) :
    p.Grows q ∧ WritesRange offset q r entry := by
  unfold range at h
  rw [Interning.lift_bind (hr r.start (by simp)), Interning.lift_bind (hr r.stop (by simp))] at h
  unfold WritesRange
  by_cases hlt : offset r.start < offset r.stop
  · rw [if_neg (not_le.mpr hlt), Interning.lift_bind (hr r.handler (by simp))] at h
    rw [if_pos hlt]
    cases hc : r.catchType with
    | none =>
      simp only [hc] at h
      cases h
      exact ⟨hp.grows, 0, rfl, rfl⟩
    | some =>
      simp only [hc] at h
      obtain ⟨slot, _, hslot, h⟩ := Interning.bind_eq_ok.mp h
      cases h
      obtain ⟨hq, hname, hne⟩ := hp.internClass hslot
      refine ⟨hq, slot, ?_, rfl⟩
      rw [caught, if_neg hne, hname]
      rfl
  · rw [if_pos (not_lt.mp hlt)] at h
    rw [if_neg hlt]
    cases h
    exact ⟨hp.grows, rfl⟩

theorem WritesRange.mono (hq : q.Extends p) (h : WritesRange offset p r entry) : WritesRange offset q r entry := by
  unfold WritesRange at h ⊢
  split at h
  case isTrue hlt =>
    obtain ⟨slot, hc, he⟩ := h
    rw [if_pos hlt]
    exact ⟨slot, stable_caught slot p q _ hq hc, he⟩
  case isFalse hlt => rwa [if_neg hlt]

theorem writesVariable_of_placed {marks : Std.TreeMap Label Nat} {entry : Option VariableEntry} (hp : p.Sound)
    (hv : ∀ l ∈ [v.start, v.stop], marks[l]? = some (offset l)) (h : placedVariable marks v p = .ok entry q) :
    p.Grows q ∧ WritesVariable offset q v entry := by
  simp only [placedVariable, hv v.start (by simp), hv v.stop (by simp)] at h
  unfold WritesVariable
  by_cases hle : offset v.start ≤ offset v.stop
  · rw [if_pos hle] at h ⊢
    obtain ⟨name, p₁, hname, h⟩ := Interning.bind_eq_ok.mp h
    obtain ⟨descriptor, _, hdescriptor, h⟩ := Interning.bind_eq_ok.mp h
    cases h
    obtain ⟨hp₁, hname⟩ := hp.internName hname
    obtain ⟨hq, hdescriptor⟩ := hp₁.sound.internName hdescriptor
    exact ⟨hp₁.trans hq, name, descriptor, Pool.stable_name name p₁ q _ hq.keeps hname, hdescriptor, rfl⟩
  · rw [if_neg hle] at h ⊢
    cases h
    exact ⟨hp.grows, rfl⟩

theorem WritesVariable.mono {entry : Option VariableEntry} (hq : q.Extends p) (h : WritesVariable offset p v entry) :
    WritesVariable offset q v entry := by
  unfold WritesVariable at h ⊢
  split at h
  case isTrue hle =>
    obtain ⟨name, descriptor, hname, hdescriptor, he⟩ := h
    rw [if_pos hle]
    exact ⟨name, descriptor, Pool.stable_name name p q _ hq hname, Pool.stable_name descriptor p q _ hq hdescriptor, he⟩
  case isFalse hle => rwa [if_neg hle]

variable {pool : Pool} {bounds : Boundaries}

/-- Ranges come back by offset, but for those without code. -/
theorem ranges_read {rs : List Range} {entries : List (Option ProtectedRange)}
    (h : List.Forall₂ (WritesRange offset pool) rs entries)
    (hb : ∀ r ∈ rs, ∀ l ∈ [r.start, r.stop, r.handler], offset l ≤ 65535 ∧ bounds.contains (offset l) = true) :
    (entries.filterMap id).mapM (Disassembly.range pool bounds) =
      .ok ((rs.map fun r => (⟨offset r.start, offset r.stop, offset r.handler, r.catchType⟩ : OffsetRange)).filter
        fun r => r.start < r.stop) := by
  rw [mapM_eq_ok]
  induction h with
  | nil => exact .nil
  | @cons r _ rs entries hr _ ih =>
    have ih := ih fun r' hr' => hb r' (mem_cons_of_mem r hr')
    have hb := hb r mem_cons_self
    unfold WritesRange at hr
    rw [map_cons]
    split at hr
    case isTrue hlt =>
      obtain ⟨_, hc, rfl⟩ := hr
      rw [filter_cons_of_pos (by simpa using hlt)]
      obtain ⟨hstart, hstartb⟩ := hb r.start (by simp)
      obtain ⟨hstop, hstopb⟩ := hb r.stop (by simp)
      obtain ⟨hhandler, hhandlerb⟩ := hb r.handler (by simp)
      refine .cons (range_eq_ok.mpr ⟨?_, r.catchType, hc, ?_⟩) ih
      · simp only [forall_mem_cons, toNat_ofNat16 hstart, toNat_ofNat16 hstop, toNat_ofNat16 hhandler]
        exact ⟨hstartb, hstopb, hhandlerb, by simp⟩
      · simp [toNat_ofNat16 hstart, toNat_ofNat16 hstop, toNat_ofNat16 hhandler]
    case isFalse hlt =>
      subst hr
      rw [filter_cons_of_neg (by simpa using hlt)]
      exact ih

/-- Variables come back by offset, but for those that end before they start. -/
theorem locals_read {vs : List Variable} {entries : List (Option VariableEntry)}
    (h : List.Forall₂ (WritesVariable offset pool) vs entries)
    (hb : ∀ v ∈ vs, ∀ l ∈ [v.start, v.stop], offset l ≤ 65535 ∧ bounds.contains (offset l) = true) :
    (entries.filterMap id).filterMap (offsetVariable? pool bounds) =
      (vs.map fun v => (⟨v.name, v.descriptor, offset v.start, offset v.stop, v.index⟩ : OffsetVariable)).filter
        fun v => v.start ≤ v.stop := by
  induction h with
  | nil => rfl
  | @cons v _ vs entries hv _ ih =>
    have ih := ih fun v' hv' => hb v' (mem_cons_of_mem v hv')
    have hb := hb v mem_cons_self
    unfold WritesVariable at hv
    rw [map_cons]
    split at hv
    case isTrue hle =>
      obtain ⟨name, descriptor, hname, hdescriptor, rfl⟩ := hv
      obtain ⟨hstart, hstartb⟩ := hb v.start (by simp)
      obtain ⟨hstop, hstopb⟩ := hb v.stop (by simp)
      have hlen : (UInt16.ofNat (offset v.stop - offset v.start)).toNat = offset v.stop - offset v.start :=
        toNat_ofNat16 (by omega)
      have hsum : offset v.start + (offset v.stop - offset v.start) = offset v.stop := by omega
      have hread : offsetVariable? pool bounds ⟨UInt16.ofNat (offset v.start),
          UInt16.ofNat (offset v.stop - offset v.start), name, descriptor, v.index⟩ =
          some ⟨v.name, v.descriptor, offset v.start, offset v.stop, v.index⟩ := by
        refine offsetVariable?_eq_some.mpr ?_
        simp only [toNat_ofNat16 hstart, hlen, hsum]
        exact ⟨hstartb, hstopb, v.name, v.descriptor, hname, hdescriptor, rfl⟩
      rw [filter_cons_of_pos (by simpa using hle), ← ih]
      exact filterMap_cons_some hread
    case isFalse hle =>
      subst hv
      rw [filter_cons_of_neg (by simpa using hle), ← ih]
      rfl

end Assembly

end Untangle
