import Untangle.Proofs.Code.Layout
import Untangle.Proofs.Pool.Growth

/-!
# How assembling can fail

A linked body whose arithmetic the machine has can be too large for the pool or for a method, or call
through an interface with a text that is no descriptor. It never fails for want of a label or an opcode:
every chunk jumps only to what its instruction does, and every label of the listing is marked.
-/

namespace Untangle

open List

variable {c : Chunk} {cs : List Chunk} {p r q : Pool} {is : List Instr} {t : Label} {i : Instr} {b : Body}

/-! ### The labels of chunks -/

/-- The labels that a chunk jumps to. -/
def Chunk.targets : Chunk → List Label
  | branch _ target | jump target | callSub target => [target]
  | tableSwitch _ _ otherwise targets => otherwise :: targets
  | lookupSwitch otherwise pairs => otherwise :: pairs.map Prod.snd
  | _ => []

theorem Chunk.mem_targets_of_target? (h : c.target? = some t) : t ∈ c.targets := by
  cases c <;> simp_all [target?, targets]

/-- The chunk is of the kind that the instruction is written as. -/
def Chunk.IsOf (c : Chunk) : Instr → Prop
  | .label name => c = .mark name
  | .line number => c = .line number
  | .jump target => c = .jump target
  | .callSub target => c = .callSub target
  | .branch cond target => c = .branch cond target
  | .tableSwitch low high otherwise targets => c = .tableSwitch low high otherwise targets
  | .lookupSwitch otherwise pairs => c = .lookupSwitch otherwise (pairs.mergeSort fun a b => a.1 ≤ b.1)
  | i => ∃ data p q, c = .fixed data ∧ Encoding.chunk i p = .ok (.fixed data) q

namespace Encoding

/-- The chunks of instructions in order, and the pool before and after they were made. -/
inductive Interned : Pool → List Instr → List Chunk → Pool → Prop
  | nil (p : Pool) : Interned p [] [] p
  | cons {p q r : Pool} {i : Instr} {is : List Instr} {c : Chunk} {cs : List Chunk}
      (head : chunk i p = .ok c q) (tail : Interned q is cs r) : Interned p (i :: is) (c :: cs) r

theorem interned_of_chunks {done : List Chunk} (h : chunks done is p = .ok cs r) :
    ∃ made, cs = done.reverse ++ made ∧ Interned p is made r := by
  induction is generalizing done p with
  | nil =>
    cases h
    exact ⟨[], by simp, .nil _⟩
  | cons i is ih =>
    simp only [chunks] at h
    split at h
    · rename_i c q hc
      obtain ⟨made, rfl, hmade⟩ := ih h
      exact ⟨c :: made, by simp, .cons hc hmade⟩
    · cases h

theorem isOf_chunk (h : chunk i p = .ok c q) : c.IsOf i := by
  have hmade := h
  cases i with
  | push value | field op member | typed op name | newMultiArray name dims =>
    obtain ⟨_, q', -, h⟩ := Interning.bind_eq_ok.mp h
    cases h
    exact ⟨_, p, q, rfl, hmade⟩
  | invoke kind member =>
    obtain ⟨_, q', -, h⟩ := Interning.bind_eq_ok.mp h
    by_cases hk : kind = .interface
    · rw [if_pos hk] at h
      obtain ⟨d, _, -, h⟩ := Interning.bind_eq_ok.mp h
      cases h
      exact ⟨_, p, q, rfl, hmade⟩
    · rw [if_neg hk] at h
      cases h
      exact ⟨_, p, q, rfl, hmade⟩
  | math kind op =>
    cases hop : mathOpcode? kind op with
    | some =>
      simp only [chunk, hop] at h
      cases h
      exact ⟨_, p, p, rfl, hmade⟩
    | none =>
      simp only [chunk, hop] at h
      cases h
  | increment =>
    simp only [chunk] at h
    split at h <;> cases h <;> exact ⟨_, p, p, rfl, hmade⟩
  | leave kind =>
    cases kind <;> cases h <;> exact ⟨_, p, p, rfl, hmade⟩
  | load | store | leaveSub | invokeDynamic | newArray | stack | raise | plain =>
    cases h
    exact ⟨_, p, p, rfl, hmade⟩
  | label | line | jump | callSub | branch | tableSwitch | lookupSwitch =>
    cases h
    rfl

/-- A chunk marks the label of its instruction, and jumps where its instruction does. -/
theorem chunk_labels (h : chunk i p = .ok c q) : c.mark? = i.label? ∧ ∀ t ∈ c.targets, t ∈ i.targets := by
  have hof := isOf_chunk h
  cases i with
  | label | line | jump | callSub | branch =>
    cases hof
    exact ⟨rfl, fun t ht => ht⟩
  | tableSwitch | lookupSwitch =>
    cases hof
    exact ⟨rfl, by simp [Chunk.targets, Instruction.targets, or_comm]⟩
  | _ =>
    -- what is written as bytes has no labels
    obtain ⟨_, -, -, rfl, -⟩ := hof
    exact ⟨rfl, by simp [Chunk.targets]⟩

theorem Interned.marks (h : Interned p is cs r) : cs.filterMap Chunk.mark? = is.filterMap Instruction.label? := by
  induction h with
  | nil => rfl
  | cons hc _ ih => rw [filterMap_cons, filterMap_cons, (chunk_labels hc).1, ih]

theorem Interned.targets (h : Interned p is cs r) (hc : c ∈ cs) (ht : t ∈ c.targets) : ∃ i ∈ is, t ∈ i.targets := by
  induction h with
  | nil => cases hc
  | cons hi _ ih =>
    rcases mem_cons.mp hc with rfl | hc
    · exact ⟨_, mem_cons_self .., (chunk_labels hi).2 t ht⟩
    · obtain ⟨i, hi, ht⟩ := ih hc
      exact ⟨i, mem_cons_of_mem _ hi, ht⟩

end Encoding

/-! ### Whole bodies -/

namespace Assembly

open Interning

/-- The bytes of a placed chunk, if every label is at the offset that `offset` gives. -/
def encoded (offset : Label → Nat) (p : Placed) : List UInt8 :=
  let away (name : Label) : Int := (offset name : Int) - p.offset
  match p.chunk with
  | .mark _ | .line _ => []
  | .fixed data => data
  | .branch cond target =>
    if p.wide then cond.invert.opcode :: (near 8 ++ Opcode.gotoW :: far (away target - 3))
    else cond.opcode :: near (away target)
  | .jump target => jump Opcode.goto Opcode.gotoW p.wide p.offset (offset target)
  | .callSub target => jump Opcode.jsr Opcode.jsrW p.wide p.offset (offset target)
  | .tableSwitch low high otherwise targets =>
    Opcode.tableswitch :: List.replicate (Chunk.switchPadding p.offset) 0 ++ (far (away otherwise) ++
      (Bytes.be32 low.toUInt32 ++ (Bytes.be32 high.toUInt32 ++ targets.flatMap fun t => far (away t))))
  | .lookupSwitch otherwise pairs =>
    Opcode.lookupswitch :: List.replicate (Chunk.switchPadding p.offset) 0 ++ (far (away otherwise) ++
      (Bytes.count32 pairs.length ++ pairs.flatMap fun kt => Bytes.be32 kt.1.toUInt32 ++ far (away kt.2)))

/-- A computation for each entry of a list, if it is known what each of them gives. -/
theorem mapM_eq_map {α β : Type} {f : α → Except Error β} {g : α → β} {xs : List α} (h : ∀ x ∈ xs, f x = .ok (g x)) :
    xs.mapM f = .ok (xs.map g) := by
  rw [mapM_eq_ok, forall₂_map_right_iff, forall₂_same]
  exact h

theorem bytes_eq {resolve : Label → Except Error Nat} {offset : Label → Nat} {p : Placed}
    (h : ∀ t ∈ p.chunk.targets, resolve t = .ok (offset t)) : bytes resolve p = .ok (encoded offset p) := by
  obtain ⟨c, _, o⟩ := p
  cases c with
  | mark | line | fixed => rfl
  | branch _ t =>
    simp only [bytes, encoded, h t (mem_singleton_self t)]
    split <;> rfl
  | jump t | callSub t =>
    simp only [bytes, h t (mem_singleton_self t)]
    rfl
  | tableSwitch _ _ otherwise targets =>
    have ho := h otherwise (mem_cons_self ..)
    have hts : targets.mapM (fun name => do return far (((← resolve name) : Int) - o)) =
        .ok (targets.map fun t => far ((offset t : Int) - o)) := by
      refine mapM_eq_map fun t ht => ?_
      rw [h t (mem_cons_of_mem _ ht)]
      rfl
    simp only [bytes, hts, ho]
    rfl
  | lookupSwitch otherwise =>
    have ho := h otherwise (mem_cons_self ..)
    simp only [bytes, ho]
    rw [mapM_eq_map]
    · rfl
    · intro kt hkt
      simp only [h kt.2 (mem_cons_of_mem _ (mem_map_of_mem hkt))]
      rfl

/-- The offset of a label, 0 for one that is not there. -/
def offsetOf (l : Layout) (name : Label) : Nat := l.marks.getD name 0

theorem resolve_eq_offsetOf {l : Layout} {name : Label} (h : .mark name ∈ l.chunks.map Placed.chunk) :
    Layout.resolve l.marks name = .ok (offsetOf l name) := by
  obtain ⟨_, ho⟩ := Layout.exists_resolve h
  unfold Layout.resolve at ho ⊢
  split at ho
  · rename_i hget
    rw [offsetOf, Std.TreeMap.getD_eq_getD_getElem?, hget]
    rfl
  · cases ho

/-- The layout of a linked body: it exists, and has an offset for every label that is named. -/
theorem exists_layout (hb : b.Linked) (h : Encoding.chunks [] b.code.instrs p = .ok cs q) :
    ∃ l, Layout.of cs = .ok l ∧ l.Fits cs ∧
      (∀ name ∈ b.referenced, Layout.resolve l.marks name = .ok (offsetOf l name)) ∧
      ∀ c ∈ cs, ∀ t ∈ c.targets, t ∈ b.referenced := by
  obtain ⟨_, hmade, hi⟩ := Encoding.interned_of_chunks h
  subst hmade
  have hmark : ∀ name ∈ labelsOf b.nodes, .mark name ∈ cs := by
    intro name hname
    have hname : name ∈ b.code.instrs.filterMap Instruction.label? := by
      rw [Listing.instrs, filterMap_map]
      exact hname
    rw [← hi.marks] at hname
    obtain ⟨c, hc, hcl⟩ := mem_filterMap.mp hname
    rwa [Chunk.mark?_eq_some.mp hcl] at hc
  have htarget : ∀ c ∈ cs, ∀ t ∈ c.targets, t ∈ b.referenced := by
    intro c hc t ht
    obtain ⟨i, hmem, ht⟩ := hi.targets hc ht
    obtain ⟨n, hn, rfl⟩ := mem_map.mp hmem
    exact Body.mem_referenced.mpr (.inl (mem_targetsOf.mpr ⟨n, hn, ht⟩))
  have hmarked : Layout.Marked cs := fun c hc t ht =>
    hmark t (hb.bound t (htarget c hc t (Chunk.mem_targets_of_target? ht)))
  obtain ⟨l, hof, hfits⟩ := Layout.of_eq_ok hmarked
  refine ⟨l, hof, hfits, fun name hname => resolve_eq_offsetOf ?_, htarget⟩
  rw [hfits.chunks]
  exact hmark name (hb.bound name hname)

/-- A linked body whose arithmetic the machine has fails to assemble only for its size or for a
descriptor. -/
theorem failsOnly_assemble (hb : b.Linked) (hm : ∀ n ∈ b.nodes, n.instr.HasOpcode) :
    ∀ p e q, assemble b p = .error e q → e.IsLimit := by
  have h : ∀ e : Error, e.IsLimit → e.IsLimit := fun _ he => he
  have hinstrs : ∀ i ∈ b.code.instrs, i.HasOpcode ∨ ∀ e : Error, e.IsLimit := by
    intro i hi
    obtain ⟨n, hn, rfl⟩ := mem_map.mp hi
    exact .inl (hm n hn)
  suffices hadds : (assemble b).Adds Error.IsLimit from hadds.fails
  refine (Encoding.adds_chunks h hinstrs []).bind fun cs p q hcs => ?_
  obtain ⟨l, hof, hfits, hresolve, htarget⟩ := exists_layout hb hcs
  rw [hof]
  refine (adds_lift fun e he => (by cases he)).bind fun l' p' q' hl => ?_
  cases (lift_eq_ok.mp hl).1
  dsimp only
  split
  · exact (adds_throw trivial).bind fun _ _ _ h => (by cases h)
  have hbytes : l.chunks.mapM (bytes (Layout.resolve l.marks)) = .ok (l.chunks.map (encoded (offsetOf l))) :=
    mapM_eq_map fun c hc => bytes_eq fun t ht =>
      hresolve t (htarget c.chunk (hfits.chunks ▸ mem_map_of_mem hc) t ht)
  rw [hbytes]
  refine (adds_mapM fun r hr => adds_range h fun name hname e he => ?_).bind fun ranges _ _ _ => ?_
  · rw [hresolve name (Body.mem_referenced.mpr (.inr (.inl ⟨r, hr, by simpa using hname⟩)))] at he
    cases he
  refine (adds_mapM fun v _ => adds_placedVariable h _ v).bind fun locals _ _ _ => ?_
  exact (adds_table h _ _ _).bind fun _ _ _ _ => (adds_table h _ _ _).bind fun _ _ _ _ => adds_pure _

end Assembly

end Untangle
