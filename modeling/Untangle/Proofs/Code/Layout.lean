import Mathlib.Data.List.Basic
import Untangle.Code.Layout
import Untangle.Proofs.Results

/-!
# Layouts

Chunks are placed one after the other from offset 0 on. If every jump goes to a label that is there,
laying out succeeds and settles: the rounds are enough for every jump that does not fit to be made
wide, so every jump that is left short fits its two bytes.
-/

namespace Untangle

open List

variable {name : Label} {d : Int} {l : Layout} {offset : Nat} {ps : List Placed}

/-- Bytes the chunk takes where it stands. -/
def Placed.size (p : Placed) : Nat := p.chunk.size p.offset p.wide

/-- The label that a chunk marks. -/
def Chunk.mark? : Chunk → Option Label
  | mark name => some name
  | _ => none

theorem Chunk.mark?_eq_some {c : Chunk} : c.mark? = some name ↔ c = .mark name := by
  cases c <;> simp [mark?]

namespace Layout

variable {marks : Std.TreeMap Label Nat}

/-! ### Displacements -/

/-- A displacement that is not far comes back from its two bytes. -/
theorem toInt_near (h : isFar d = false) : (Int16.ofInt d).toInt = d := by
  simp only [isFar, Bool.or_eq_false_iff, decide_eq_false_iff_not] at h
  rw [Int16.toInt_ofInt, Int.bmod_eq_of_le (by simp; omega) (by simp; omega)]

/-- A displacement inside code of usual length comes back from its four bytes. -/
theorem toInt_far (h : -0x20000 ≤ d ∧ d ≤ 0x20000) : (Int32.ofInt d).toInt = d := by
  rw [Int32.toInt_ofInt, Int.bmod_eq_of_le (by simp; omega) (by simp; omega)]

/-! ### Placing -/

/-- The chunks follow each other without a gap, from one offset to another. -/
def Consecutive : Nat → List Placed → Nat → Prop
  | first, [], last => first = last
  | first, p :: ps, last => p.offset = first ∧ Consecutive (first + p.size) ps last

theorem place_eq (first : Nat) (done : List Placed) (cs : List (Chunk × Bool)) :
    ∃ ps last, place first done cs = ⟨done.reverse ++ ps, last⟩ ∧ Consecutive first ps last ∧
      ps.map (fun p => (p.chunk, p.wide)) = cs := by
  induction cs generalizing first done with
  | nil => exact ⟨[], first, by simp [place], rfl, rfl⟩
  | cons c cs ih =>
    obtain ⟨ps, last, he, hps, hcs⟩ := ih (first + c.1.size first c.2) (⟨c.1, c.2, first⟩ :: done)
    refine ⟨⟨c.1, c.2, first⟩ :: ps, last, ?_, ⟨rfl, hps⟩, by rw [map_cons, hcs]⟩
    rw [place, he, reverse_cons, append_assoc]
    rfl

/-- Chunks that are placed from the start. -/
theorem consecutive_place (cs : List (Chunk × Bool)) :
    Consecutive 0 (place 0 [] cs).chunks (place 0 [] cs).size ∧
      (place 0 [] cs).chunks.map (fun p => (p.chunk, p.wide)) = cs := by
  obtain ⟨_, _, he, hps, hcs⟩ := place_eq 0 [] cs
  rw [he]
  exact ⟨hps, hcs⟩

/-! ### Labels -/

theorem marks_eq (l : Layout) :
    l.marks = Std.TreeMap.ofList (l.chunks.filterMap fun p => p.chunk.mark?.map (·, p.offset)) := by
  rw [marks]
  congr 1
  refine filterMap_congr fun p _ => ?_
  cases p.chunk <;> rfl

/-- A label that is marked has an offset. -/
theorem exists_resolve (h : .mark name ∈ l.chunks.map Placed.chunk) : ∃ offset, resolve l.marks name = .ok offset := by
  obtain ⟨p, hp, hc⟩ := mem_map.mp h
  have hmem : (l.marks).contains name = true := by
    rw [marks_eq, Std.TreeMap.contains_ofList, contains_iff_mem, mem_map]
    exact ⟨(name, p.offset), mem_filterMap.mpr ⟨p, hp, by rw [hc]; rfl⟩, rfl⟩
  rw [Std.TreeMap.contains_eq_isSome_getElem?] at hmem
  obtain ⟨offset, hoffset⟩ := Option.isSome_iff_exists.mp hmem
  exact ⟨offset, by rw [resolve, hoffset]⟩

/-- The offset of a label is that of its last mark. -/
theorem last_mark_of_resolve (h : resolve l.marks name = .ok offset) :
    ∃ pre p post, l.chunks = pre ++ p :: post ∧ p.chunk = .mark name ∧ p.offset = offset ∧
      ∀ q ∈ post, q.chunk ≠ .mark name := by
  unfold resolve at h
  split at h
  case h_2 => cases h
  rename_i hget
  cases h
  rw [marks_eq, Std.TreeMap.ofList_eq_insertMany_empty, Std.TreeMap.getElem?_insertMany_list,
    Std.TreeMap.getElem?_emptyc, Option.or_none, findSomeRev?_eq_findSome?_reverse, ← filterMap_reverse,
    ← head?_filterMap, filterMap_filterMap, head?_filterMap] at hget
  obtain ⟨post, p, pre, hsplit, hp, hpost⟩ := findSome?_eq_some_iff.mp hget
  have hchunks : l.chunks = pre.reverse ++ p :: post.reverse := by
    simpa using congrArg reverse hsplit
  obtain ⟨m, hm, hfound⟩ := Option.bind_eq_some_iff.mp hp
  obtain ⟨k, hk, rfl⟩ := Option.map_eq_some_iff.mp hm
  simp only [Std.compare_eq_iff_eq, Option.ite_none_right_eq_some, Option.some.injEq] at hfound
  obtain ⟨rfl, hoffset⟩ := hfound
  refine ⟨_, p, _, hchunks, Chunk.mark?_eq_some.mp hk, hoffset, fun q hq hmark => ?_⟩
  have hnone := hpost q (mem_reverse.mp hq)
  simp [hmark, Chunk.mark?] at hnone

theorem resolve_eq_ok (h : resolve l.marks name = .ok offset) :
    ∃ p ∈ l.chunks, p.chunk = .mark name ∧ p.offset = offset := by
  obtain ⟨pre, p, post, hchunks, hmark, hoffset, -⟩ := last_mark_of_resolve h
  exact ⟨p, by simp [hchunks], hmark, hoffset⟩

/-! ### Settling -/

/-- Every jump goes to a label that is there. -/
def Marked (cs : List Chunk) : Prop := ∀ c ∈ cs, ∀ t, c.target? = some t → .mark t ∈ cs

/-- The jumps that are still short. -/
def shortJumps (cs : List (Chunk × Bool)) : Nat := cs.countP fun c => c.1.target?.isSome && !c.2

/-- Every jump that is left short fits its two bytes. -/
def Settled (l : Layout) : Prop :=
  ∀ p ∈ l.chunks, ∀ t, p.chunk.target? = some t → p.wide = false →
    ∃ offset, resolve l.marks t = .ok offset ∧ isFar ((offset : Int) - p.offset) = false

/-- Only jumps are made wide. -/
def OnlyJumpsWide (cs : List (Chunk × Bool)) : Prop := ∀ c ∈ cs, c.2 = true → c.1.target?.isSome = true

/-- The chunk is a jump that two bytes do not reach from. -/
def far (marks : Std.TreeMap Label Nat) (p : Placed) : Bool :=
  match p.chunk.target? with
  | some t =>
    match marks[t]? with
    | some offset => isFar ((offset : Int) - p.offset)
    | none => false
  | none => false

theorem far_eq {p : Placed} {t : Label} (ht : p.chunk.target? = some t) (ho : resolve marks t = .ok offset) :
    far marks p = isFar ((offset : Int) - p.offset) := by
  unfold resolve at ho
  split at ho
  · rename_i hget
    cases ho
    simp [far, ht, hget]
  · cases ho

/-- One round makes wide what does not fit, and leaves the rest. -/
theorem widen_eq (h : ∀ p ∈ ps, ∀ t, p.chunk.target? = some t → ∃ offset, resolve marks t = .ok offset)
    (changed : Bool) (done : List (Chunk × Bool)) :
    widen marks changed done ps = .ok (changed || ps.any (fun p => !p.wide && far marks p),
      done.reverse ++ ps.map fun p => (p.chunk, p.wide || far marks p)) := by
  induction ps generalizing changed done with
  | nil => simp [widen]
  | cons p ps ih =>
    have ih := ih fun q hq => h q (mem_cons_of_mem p hq)
    rw [widen]
    split
    · rename_i t ht
      split
      · rename_i hwide
        rw [ih]
        simp [hwide]
      · rename_i hwide
        obtain ⟨offset, ho⟩ := h p (mem_cons_self ..) t ht
        simp only [ho]
        rw [ih, ← far_eq ht ho]
        simp [hwide, Bool.or_assoc]
    · rename_i ht
      have hfar : far marks p = false := by simp [far, ht]
      rw [ih]
      simp [hfar]

/-- A round that changes something leaves fewer short jumps. -/
theorem shortJumps_lt (h : ps.any (fun p => !p.wide && far marks p) = true) :
    shortJumps (ps.map fun p => (p.chunk, p.wide || far marks p)) <
      shortJumps (ps.map fun p => (p.chunk, p.wide)) := by
  obtain ⟨p, hp, hfar⟩ := any_eq_true.mp h
  rw [Bool.and_eq_true] at hfar
  obtain ⟨before, after, rfl⟩ := append_of_mem hp
  have hle : ∀ qs : List Placed, shortJumps (qs.map fun p => (p.chunk, p.wide || far marks p)) ≤
      shortJumps (qs.map fun p => (p.chunk, p.wide)) := by
    intro qs
    simp only [shortJumps, countP_map]
    refine countP_mono_left fun q _ hq => ?_
    simp_all
  have htarget : p.chunk.target?.isSome = true := by
    cases ht : p.chunk.target? with
    | none => simp [far, ht] at hfar
    | some t => rfl
  have hb := hle before
  have ha := hle after
  simp only [shortJumps, map_append, map_cons, countP_append, countP_cons] at hb ha ⊢
  simp only [htarget, hfar.1, hfar.2, Bool.or_true, Bool.not_true, Bool.and_false,
    Bool.and_self, Bool.false_eq_true, if_true, if_false]
  omega

/-- Laying out succeeds and settles if there are rounds enough. -/
theorem settle_eq {rounds : Nat} {cs : List (Chunk × Bool)} (hmarked : Marked (cs.map Prod.fst))
    (hrounds : shortJumps cs < rounds) (hwide : OnlyJumpsWide cs) :
    ∃ ws, settle rounds cs = .ok (place 0 [] ws) ∧ ws.map Prod.fst = cs.map Prod.fst ∧
      OnlyJumpsWide ws ∧ Settled (place 0 [] ws) := by
  induction rounds generalizing cs with
  | zero => omega
  | succ rounds ih =>
    have hchunks := (consecutive_place cs).2
    have hfst : (place 0 [] cs).chunks.map Placed.chunk = cs.map Prod.fst := by
      conv_rhs => rw [← hchunks, map_map]
      rfl
    have hresolve : ∀ p ∈ (place 0 [] cs).chunks, ∀ t, p.chunk.target? = some t →
        ∃ offset, resolve (place 0 [] cs).marks t = .ok offset := by
      intro p hp t ht
      refine exists_resolve ?_
      rw [hfst]
      exact hmarked p.chunk (hfst ▸ mem_map_of_mem hp) t ht
    have hwiden := widen_eq hresolve false []
    cases hany : (place 0 [] cs).chunks.any (fun p => !p.wide && far (place 0 [] cs).marks p) with
    | true =>
      rw [hany] at hwiden
      have hlt := shortJumps_lt hany
      rw [hchunks] at hlt
      have hnext : ((place 0 [] cs).chunks.map fun p =>
          (p.chunk, p.wide || far (place 0 [] cs).marks p)).map Prod.fst = cs.map Prod.fst := by
        rw [map_map]
        exact hfst
      have hnextWide : OnlyJumpsWide ((place 0 [] cs).chunks.map fun p =>
          (p.chunk, p.wide || far (place 0 [] cs).marks p)) := by
        intro c hc hw
        obtain ⟨p, hp, rfl⟩ := mem_map.mp hc
        rcases (Bool.or_eq_true _ _).mp hw with hw | hw
        · exact hwide (p.chunk, p.wide) (hchunks ▸ mem_map_of_mem hp) hw
        · cases ht : p.chunk.target? with
          | none => simp [far, ht] at hw
          | some t => rfl
      obtain ⟨ws, hws, hsame, hjumps, hsettled⟩ := ih (hnext ▸ hmarked) (by omega) hnextWide
      refine ⟨ws, ?_, hsame.trans hnext, hjumps, hsettled⟩
      rw [settle, hwiden]
      exact hws
    | false =>
      refine ⟨cs, by rw [settle, hwiden, hany]; rfl, rfl, hwide, fun p hp t ht hshort => ?_⟩
      obtain ⟨offset, ho⟩ := hresolve p hp t ht
      have hnear := any_eq_false.mp hany p hp
      rw [hshort, far_eq ht ho] at hnear
      exact ⟨offset, ho, by simpa using hnear⟩

/-- The chunks stand one after the other from offset 0 on, only jumps are wide, and what is left short
fits. -/
structure Fits (chunks : List Chunk) (l : Layout) : Prop where
  chunks : l.chunks.map Placed.chunk = chunks
  consecutive : Consecutive 0 l.chunks l.size
  onlyJumpsWide : ∀ p ∈ l.chunks, p.wide = true → p.chunk.target?.isSome = true
  settled : l.Settled

/-- Chunks whose jumps go to labels that are there can be laid out. -/
theorem of_eq_ok {chunks : List Chunk} (h : Marked chunks) : ∃ l, Layout.of chunks = .ok l ∧ l.Fits chunks := by
  have hfst : (chunks.map (·, false)).map Prod.fst = chunks := by simp [Function.comp_def]
  have hrounds : shortJumps (chunks.map (·, false)) < chunks.countP (·.target?.isSome) + 1 := by
    simp [shortJumps, Function.comp_def]
  have hwide : OnlyJumpsWide (chunks.map (·, false)) := by
    intro c hc hw
    obtain ⟨_, -, rfl⟩ := mem_map.mp hc
    cases hw
  obtain ⟨ws, hws, hsame, hjumps, hsettled⟩ := settle_eq (hfst.symm ▸ h) hrounds hwide
  obtain ⟨hcons, hpairs⟩ := consecutive_place ws
  refine ⟨place 0 [] ws, hws, ?_, hcons, fun p hp => ?_, hsettled⟩
  · rw [← hfst, ← hsame]
    conv_rhs => rw [← hpairs, map_map]
    rfl
  · exact hjumps (p.chunk, p.wide) (hpairs ▸ mem_map_of_mem hp)

end Layout

end Untangle
