import Untangle.Proofs.Code.Placement

/-!
# Laying out ends, and what it computes is what is written

Jumps are made wide and the code is laid out anew for as long as some jump does not fit. `Rounds` is that loop as
such, without a bound on the number of rounds. Making a jump wide moves what stands behind it and changes the padding
of switches, so a jump that did fit may no longer do so. But a jump that is wide stays wide, so each round that does
not end the loop leaves fewer short jumps.

Whatever is assembled is written as it was laid out: each entry stands at its offset, and each displacement leads to
the offset of its label. Nothing is assumed of the body. If a label is bound more than once, its last place counts.
-/

namespace Untangle

open List

variable {is : List Instr} {i : Instr} {p : Placed} {n offset : Nat} {ps : List Placed} {ws : List (Chunk × Bool)}
  {name : Label} {cs : List Chunk} {c : Chunk} {data : List UInt8}

namespace Layout

variable {cs : List (Chunk × Bool)}

/-! ### The loop -/

/-- Laying out chunks, which takes a number of layouts and comes to a result. -/
inductive Rounds : List (Chunk × Bool) → Nat → Except Error Layout → Prop
  /-- Every jump fits. -/
  | fits {cs ws : List (Chunk × Bool)}
      (widened : widen (place 0 [] cs).marks false [] (place 0 [] cs).chunks = .ok (false, ws)) :
      Rounds cs 1 (.ok (place 0 [] cs))
  /-- A jump has no target. -/
  | fails {cs : List (Chunk × Bool)} {e : Error}
      (widened : widen (place 0 [] cs).marks false [] (place 0 [] cs).chunks = .error e) : Rounds cs 1 (.error e)
  /-- Some jump was made wide. -/
  | again {cs ws : List (Chunk × Bool)} {n : Nat} {r : Except Error Layout}
      (widened : widen (place 0 [] cs).marks false [] (place 0 [] cs).chunks = .ok (true, ws))
      (rest : Rounds ws n r) : Rounds cs (n + 1) r

/-- There is one way to go on. -/
theorem Rounds.unique {m : Nat} {r s : Except Error Layout} (h : Rounds cs m r) (h' : Rounds cs n s) :
    m = n ∧ r = s := by
  induction h generalizing n s with
  | fits hw => cases h' <;> simp_all
  | fails hw => cases h' <;> simp_all
  | again hw _ ih =>
    cases h' with
    | fits hw' | fails hw' => simp_all
    | again hw' hrest =>
      rw [hw] at hw'
      cases hw'
      obtain ⟨rfl, rfl⟩ := ih hrest
      exact ⟨rfl, rfl⟩

/-- What a round that succeeds has looked at and made wide. -/
theorem widen_eq_ok {marks : Std.TreeMap Label Nat} {changed changed' : Bool} {done : List (Chunk × Bool)}
    (h : widen marks changed done ps = .ok (changed', ws)) :
    (∀ p ∈ ps, ∀ t, p.chunk.target? = some t → p.wide = false → ∃ offset, resolve marks t = .ok offset) ∧
      changed' = (changed || ps.any fun p => !p.wide && far marks p) ∧
      ws = done.reverse ++ ps.map fun p => (p.chunk, p.wide || far marks p) := by
  induction ps generalizing changed done with
  | nil =>
    cases h
    simp
  | cons p ps ih =>
    rw [widen] at h
    split at h
    · rename_i t ht
      split at h
      · rename_i hwide
        obtain ⟨hall, hchanged, hws⟩ := ih h
        refine ⟨forall_mem_cons.mpr ⟨fun _ _ hshort => ?_, hall⟩, ?_, ?_⟩
        · rw [hwide] at hshort
          cases hshort
        · simpa [hwide] using hchanged
        · simpa [hwide] using hws
      · rename_i hwide
        split at h
        · rename_i offset hoffset
          obtain ⟨hall, hchanged, hws⟩ := ih h
          rw [← far_eq ht hoffset] at hchanged hws
          refine ⟨forall_mem_cons.mpr ⟨fun t' ht' _ => ?_, hall⟩, ?_, ?_⟩
          · rw [ht] at ht'
            cases ht'
            exact ⟨offset, hoffset⟩
          · simpa [hwide, Bool.or_assoc] using hchanged
          · simpa [hwide] using hws
        · cases h
    · rename_i ht
      have hfar : far marks p = false := by simp [far, ht]
      obtain ⟨hall, hchanged, hws⟩ := ih h
      refine ⟨forall_mem_cons.mpr ⟨fun t' ht' _ => ?_, hall⟩, ?_, ?_⟩
      · rw [ht] at ht'
        cases ht'
      · simpa [hfar] using hchanged
      · simpa [hfar] using hws

/-- A round that goes on leaves fewer short jumps. -/
theorem shortJumps_widen (h : widen (place 0 [] cs).marks false [] (place 0 [] cs).chunks = .ok (true, ws)) :
    shortJumps ws < shortJumps cs := by
  obtain ⟨-, hchanged, rfl⟩ := widen_eq_ok h
  have hlt := shortJumps_lt hchanged.symm
  rwa [(consecutive_place cs).2] at hlt

/-- The loop comes to the result that is computed with a bound on the rounds, after at most one layout more than
there are short jumps. -/
theorem rounds_settle {bound : Nat} (h : shortJumps cs < bound) :
    ∃ n ≤ shortJumps cs + 1, Rounds cs n (settle bound cs) := by
  induction bound generalizing cs with
  | zero => omega
  | succ bound ih =>
    rw [settle]
    cases hw : widen (place 0 [] cs).marks false [] (place 0 [] cs).chunks with
    | error e => exact ⟨1, by omega, .fails hw⟩
    | ok v =>
      obtain ⟨changed, ws⟩ := v
      cases changed with
      | false => exact ⟨1, by omega, .fits hw⟩
      | true =>
        have hlt := shortJumps_widen hw
        have hbound : shortJumps ws < bound := by omega
        obtain ⟨n, hn, hrounds⟩ := ih hbound
        exact ⟨n + 1, by omega, .again hw hrounds⟩

theorem shortJumps_start (chunks : List Chunk) :
    shortJumps (chunks.map (·, false)) = chunks.countP (·.target?.isSome) := by
  simp [shortJumps, Function.comp_def]

theorem rounds_of (chunks : List Chunk) :
    ∃ n ≤ chunks.countP (·.target?.isSome) + 1, Rounds (chunks.map (·, false)) n (Layout.of chunks) := by
  rw [← shortJumps_start]
  exact rounds_settle (by rw [shortJumps_start]; omega)

/-- What the loop ends with is a layout of the same chunks in which every jump that is left short fits. -/
theorem Rounds.settled (h : Rounds cs n (.ok l)) :
    l.chunks.map Placed.chunk = cs.map Prod.fst ∧ Consecutive 0 l.chunks l.size ∧ l.Settled := by
  generalize hr : Except.ok l = r at h
  induction h with
  | @fits cs ws hw =>
    cases hr
    obtain ⟨hcons, hpairs⟩ := consecutive_place cs
    refine ⟨?_, hcons, fun p hp t ht hshort => ?_⟩
    · conv_rhs => rw [← hpairs, map_map]
      rfl
    · obtain ⟨hall, hchanged, -⟩ := widen_eq_ok hw
      obtain ⟨offset, hoffset⟩ := hall p hp t ht hshort
      have hnear := any_eq_false.mp hchanged.symm p hp
      rw [hshort, far_eq ht hoffset] at hnear
      exact ⟨offset, hoffset, by simpa using hnear⟩
  | fails => cases hr
  | @again cs ws n r hw _ ih =>
    obtain ⟨hchunks, hcons, hsettled⟩ := ih hr
    obtain ⟨-, -, rfl⟩ := widen_eq_ok hw
    refine ⟨hchunks.trans ?_, hcons, hsettled⟩
    conv_rhs => rw [← (consecutive_place cs).2, map_map]
    rw [reverse_nil, nil_append, map_map]
    rfl

end Layout

/-! ### Chunks of instructions -/

/-- A conditional or unconditional jump, to one target. -/
def Instruction.isDirectJump {τ : Type} : Instruction τ → Bool
  | jump _ | callSub _ | branch _ _ => true
  | _ => false

namespace Encoding

theorem Interned.isOf {p r : Pool} (h : Interned p is cs r) : List.Forall₂ (fun i c => c.IsOf i) is cs := by
  induction h with
  | nil => exact .nil
  | cons hc _ ih => exact .cons (isOf_chunk hc) ih

end Encoding

theorem Chunk.IsOf.target? (h : c.IsOf i) : c.target?.isSome = i.isDirectJump := by
  cases i with
  | label | line | jump | callSub | branch | tableSwitch | lookupSwitch =>
    cases h
    rfl
  | _ =>
    obtain ⟨_, -, -, rfl, -⟩ := h
    rfl

theorem Chunk.IsOf.mark (h : c.IsOf i) (name : Label) : c = .mark name ↔ i = .label name := by
  cases i with
  | label | line | jump | callSub | branch | tableSwitch | lookupSwitch =>
    cases h
    simp
  | _ =>
    obtain ⟨_, -, -, rfl, -⟩ := h
    simp

theorem countP_target? (h : List.Forall₂ (fun i c => c.IsOf i) is cs) :
    cs.countP (·.target?.isSome) = is.countP Instruction.isDirectJump := by
  induction h with
  | nil => rfl
  | cons hc _ ih => rw [countP_cons, countP_cons, ih, hc.target?]

/-! ### What is written -/

namespace Assembly

open Bytes Layout

/-- An entry of a body as it was written. -/
structure Written where
  instr : Instr
  offset : Nat
  bytes : List UInt8

/-- The label stands at an offset; if it is bound more than once, its last place counts. -/
def StandsAt (ws : List Written) (name : Label) (offset : Nat) : Prop :=
  ∃ pre w post, ws = pre ++ w :: post ∧ w.instr = .label name ∧ w.offset = offset ∧
    ∀ v ∈ post, v.instr ≠ .label name

/-- A displacement from an origin leads to the label. -/
def Leads (ws : List Written) (origin : Nat) (name : Label) (displacement : Int) : Prop :=
  ∃ offset, StandsAt ws name offset ∧ (offset : Int) = origin + displacement

/-- A jump with a displacement of two bytes or of four, which leads to its target. -/
def JumpForm (ws : List Written) (short long : UInt8) (target : Label) (offset : Nat) (data : List UInt8) : Prop :=
  (∃ d : Int16, data = short :: be16 d.toUInt16 ∧ Leads ws offset target d.toInt) ∨
    ∃ d : Int32, data = long :: be32 d.toUInt32 ∧ Leads ws offset target d.toInt

/-- How the bytes of an entry are put together: every displacement leads to its label, and the operands of a switch
start at a multiple of four. -/
def HasForm (ws : List Written) (offset : Nat) (data : List UInt8) : Instr → Prop
  | .label _ | .line _ => data = []
  | .jump target => JumpForm ws Opcode.goto Opcode.gotoW target offset data
  | .callSub target => JumpForm ws Opcode.jsr Opcode.jsrW target offset data
  | .branch cond target =>
    (∃ d : Int16, data = cond.opcode :: be16 d.toUInt16 ∧ Leads ws offset target d.toInt) ∨
      -- the opposite test passes over three bytes of its own and the five of a wide jump
      ∃ d : Int32, data = cond.invert.opcode :: (be16 8 ++ Opcode.gotoW :: be32 d.toUInt32) ∧
        Leads ws (offset + 3) target d.toInt
  | .tableSwitch low high otherwise targets =>
    ∃ (padding : Nat) (d : Int32) (ds : List Int32), padding < 4 ∧ 4 ∣ offset + 1 + padding ∧
      data = Opcode.tableswitch :: (List.replicate padding 0 ++ (be32 d.toUInt32 ++
        (be32 low.toUInt32 ++ (be32 high.toUInt32 ++ ds.flatMap fun d => be32 d.toUInt32)))) ∧
      Leads ws offset otherwise d.toInt ∧ List.Forall₂ (fun t d => Leads ws offset t d.toInt) targets ds
  | .lookupSwitch otherwise pairs =>
    ∃ (padding : Nat) (d : Int32) (ds : List (Int32 × Int32)), padding < 4 ∧ 4 ∣ offset + 1 + padding ∧
      data = Opcode.lookupswitch :: (List.replicate padding 0 ++ (be32 d.toUInt32 ++
        (count32 pairs.length ++ ds.flatMap fun kd => be32 kd.1.toUInt32 ++ be32 kd.2.toUInt32))) ∧
      Leads ws offset otherwise d.toInt ∧
      List.Forall₂ (fun kt kd => kt.1 = kd.1 ∧ Leads ws offset kt.2 kd.2.toInt)
        (pairs.mergeSort fun a b => a.1 ≤ b.1) ds
  | i => ∃ p q, Encoding.chunk i p = .ok (.fixed data) q

/-- The entries stand one after the other at the offsets of a layout, in code of the size that was computed. -/
structure Emission (is : List Instr) (l : Layout) (code : List UInt8) (ws : List Written) : Prop where
  instrs : ws.map Written.instr = is
  offsets : ws.map Written.offset = l.chunks.map Placed.offset
  bytes : ws.flatMap Written.bytes = code
  size : code.length = l.size
  starts : ∀ pre w post, ws = pre ++ w :: post → w.offset = (pre.flatMap Written.bytes).length
  forms : ∀ w ∈ ws, HasForm ws w.offset w.bytes w.instr

variable {b : Body} {pool q : Pool} {code : CodeAttribute} {l : Layout}

/-- The steps of assembling, as far as the code itself goes. -/
theorem steps_of_assemble (h : assemble b pool = .ok code q) :
    ∃ cs p l data, Encoding.chunks [] b.code.instrs pool = .ok cs p ∧ Layout.of cs = .ok l ∧ l.size ≤ 65535 ∧
      l.chunks.mapM (Assembly.bytes (resolve l.marks)) = .ok data ∧ code.code = data.flatten := by
  obtain ⟨cs, p, hcs, h⟩ := Interning.bind_eq_ok.mp h
  obtain ⟨l, _, hl, h⟩ := Interning.bind_eq_ok.mp h
  obtain ⟨hof, rfl⟩ := Interning.lift_eq_ok.mp hl
  split at h
  case isTrue => cases h
  rename_i hsize
  obtain ⟨data, _, hdata, h⟩ := Interning.bind_eq_ok.mp h
  obtain ⟨hbytes, rfl⟩ := Interning.lift_eq_ok.mp hdata
  obtain ⟨_, _, -, h⟩ := Interning.bind_eq_ok.mp h
  obtain ⟨_, _, -, h⟩ := Interning.bind_eq_ok.mp h
  obtain ⟨_, _, -, h⟩ := Interning.bind_eq_ok.mp h
  obtain ⟨_, _, -, h⟩ := Interning.bind_eq_ok.mp h
  cases h
  exact ⟨cs, p, l, data, hcs, hof, not_lt.mp hsize, hbytes, rfl⟩

/-- Whatever is written has targets that are there. -/
theorem resolves_of_bytes {resolve : Label → Except Error Nat} (h : Assembly.bytes resolve p = .ok data) :
    ∀ t ∈ p.chunk.targets, ∃ offset, resolve t = .ok offset := by
  obtain ⟨c, _, o⟩ := p
  have haway : ∀ (name : Label) (data : List UInt8), (do return far (((← resolve name) : Int) - o)) = .ok data →
      ∃ offset, resolve name = .ok offset := by
    intro name data hname
    obtain ⟨offset, hoffset, -⟩ := bind_eq_ok.mp hname
    exact ⟨offset, hoffset⟩
  cases c with
  | mark | line | fixed => simp [Chunk.targets]
  | branch cond t | jump t | callSub t =>
    obtain ⟨offset, hoffset, -⟩ := bind_eq_ok.mp h
    intro _ ht'
    rw [mem_singleton.mp ht']
    exact ⟨offset, hoffset⟩
  | tableSwitch _ _ otherwise targets =>
    obtain ⟨first, hfirst, h⟩ := bind_eq_ok.mp h
    obtain ⟨rest, hrest, -⟩ := bind_eq_ok.mp h
    intro t ht
    rcases mem_cons.mp ht with rfl | ht
    · exact haway _ _ hfirst
    · obtain ⟨d, -, hd⟩ := exists_of_forall₂_left (mapM_eq_ok.mp hrest) ht
      exact haway _ _ hd
  | lookupSwitch otherwise =>
    obtain ⟨first, hfirst, h⟩ := bind_eq_ok.mp h
    obtain ⟨rest, hrest, -⟩ := bind_eq_ok.mp h
    intro t ht
    rcases mem_cons.mp ht with rfl | ht
    · exact haway _ _ hfirst
    · obtain ⟨_, hkt, rfl⟩ := mem_map.mp ht
      obtain ⟨d, -, hd⟩ := exists_of_forall₂_left (mapM_eq_ok.mp hrest) hkt
      obtain ⟨_, hd', -⟩ := bind_eq_ok.mp hd
      exact haway _ _ hd'

/-- A placed chunk that is written has its targets at their offsets. -/
theorem encoded_of_bytes (h : Assembly.bytes (resolve l.marks) p = .ok data) :
    (∀ t ∈ p.chunk.targets, resolve l.marks t = .ok (offsetOf l t)) ∧ data = encoded (offsetOf l) p := by
  have hresolve : ∀ t ∈ p.chunk.targets, resolve l.marks t = .ok (offsetOf l t) := by
    intro t ht
    obtain ⟨_, hoffset⟩ := resolves_of_bytes h t ht
    obtain ⟨m, hm, hmark, -⟩ := resolve_eq_ok hoffset
    exact resolve_eq_offsetOf (mem_map.mpr ⟨m, hm, hmark⟩)
  rw [bytes_eq hresolve] at h
  exact ⟨hresolve, (Except.ok.inj h).symm⟩

section Forms

variable {ws : List Written} {o : Nat} {t : Label} {offset : Label → Nat}

/-- A displacement that is not far leads to its label from two bytes. -/
theorem leads_near (ht : StandsAt ws t (offset t)) (h : isFar ((offset t : Int) - o) = false) :
    Leads ws o t (Int16.ofInt ((offset t : Int) - o)).toInt :=
  ⟨offset t, ht, by rw [toInt_near h]; omega⟩

/-- A displacement inside the code leads to its label from four bytes. -/
theorem leads_far (ht : StandsAt ws t (offset t)) (hto : offset t ≤ 65535) (ho : o ≤ 65538) :
    Leads ws o t (Int32.ofInt ((offset t : Int) - o)).toInt :=
  ⟨offset t, ht, by rw [toInt_far ⟨by omega, by omega⟩]; omega⟩

theorem jumpForm_jump {short long : UInt8} {wide : Bool} (ht : StandsAt ws t (offset t)) (hto : offset t ≤ 65535)
    (ho : o ≤ 65535) (hshort : wide = false → isFar ((offset t : Int) - o) = false) :
    JumpForm ws short long t o (jump short long wide o (offset t)) := by
  cases wide with
  | false => exact .inl ⟨_, rfl, leads_near ht (hshort rfl)⟩
  | true => exact .inr ⟨_, rfl, leads_far ht hto (by omega)⟩

/-- The operands of a switch start at the next multiple of four. -/
theorem switchPadding_aligns (o : Nat) : Chunk.switchPadding o < 4 ∧ 4 ∣ o + 1 + Chunk.switchPadding o := by
  unfold Chunk.switchPadding
  omega

/-- What is written of a chunk has the form that its instruction asks for. -/
theorem hasForm_encoded (hc : p.chunk.IsOf i)
    (ht : ∀ t ∈ p.chunk.targets, StandsAt ws t (offset t) ∧ offset t ≤ 65535) (ho : p.offset ≤ 65535)
    (hshort : ∀ t, p.chunk.target? = some t → p.wide = false → isFar ((offset t : Int) - p.offset) = false) :
    HasForm ws p.offset (encoded offset p) i := by
  obtain ⟨c, wide, o⟩ := p
  replace ho : o ≤ 65535 := ho
  change HasForm ws o (encoded offset ⟨c, wide, o⟩) i
  cases i with
  | label | line =>
    cases hc
    rfl
  | jump t | callSub t =>
    cases hc
    obtain ⟨hstands, hle⟩ := ht t (mem_singleton_self t)
    exact jumpForm_jump hstands hle ho (hshort t rfl)
  | branch _ t =>
    cases hc
    obtain ⟨hstands, hle⟩ := ht t (mem_singleton_self t)
    cases wide with
    | false => exact .inl ⟨_, rfl, leads_near hstands (hshort t rfl rfl)⟩
    | true =>
      refine .inr ⟨Int32.ofInt ((offset t : Int) - (o + 3 : Nat)), ?_, leads_far hstands hle (by omega)⟩
      have heq : (offset t : Int) - (o + 3 : Nat) = (offset t : Int) - o - 3 := by omega
      rw [heq]
      rfl
  | tableSwitch _ _ otherwise targets =>
    cases hc
    obtain ⟨hpadding, haligned⟩ := switchPadding_aligns o
    have hleads : ∀ t ∈ otherwise :: targets, Leads ws o t (Int32.ofInt ((offset t : Int) - o)).toInt :=
      fun t hmem => leads_far (ht t hmem).1 (ht t hmem).2 (by omega)
    refine ⟨_, _, targets.map fun t => Int32.ofInt ((offset t : Int) - o), hpadding, haligned, ?_,
      hleads otherwise mem_cons_self, ?_⟩
    · rw [flatMap_map]
      rfl
    · rw [forall₂_map_right_iff, forall₂_same]
      exact fun t hmem => hleads t (mem_cons_of_mem _ hmem)
  | lookupSwitch otherwise pairs =>
    cases hc
    obtain ⟨hpadding, haligned⟩ := switchPadding_aligns o
    have hleads : ∀ t ∈ otherwise :: (pairs.mergeSort fun a b => a.1 ≤ b.1).map Prod.snd,
        Leads ws o t (Int32.ofInt ((offset t : Int) - o)).toInt :=
      fun t hmem => leads_far (ht t hmem).1 (ht t hmem).2 (by omega)
    refine ⟨_, _, (pairs.mergeSort fun a b => a.1 ≤ b.1).map fun kt => (kt.1, Int32.ofInt ((offset kt.2 : Int) - o)),
      hpadding, haligned, ?_, hleads otherwise mem_cons_self, ?_⟩
    · have hlength : (pairs.mergeSort fun a b => a.1 ≤ b.1).length = pairs.length := length_mergeSort _
      rw [flatMap_map, ← hlength]
      rfl
    · rw [forall₂_map_right_iff, forall₂_same]
      exact fun kt hmem => ⟨rfl, hleads kt.2 (mem_cons_of_mem _ (mem_map_of_mem hmem))⟩
  | _ =>
    obtain ⟨_, p, q, rfl, hdata⟩ := hc
    exact ⟨p, q, hdata⟩

end Forms

/-- Chunks that follow each other are written in as many bytes as lie between the ends. -/
theorem length_of_consecutive (offset : Label → Nat) {first last : Nat} (h : Consecutive first ps last) :
    first + (ps.flatMap (encoded offset)).length = last := by
  induction ps generalizing first with
  | nil => exact h
  | cons p ps ih =>
    have hrest := ih h.2
    rw [flatMap_cons, length_append, length_encoded]
    omega

/-- An instruction with the place and the bytes that a layout gives it. -/
def writtenAt (l : Layout) (z : Instr × Placed) : Written := ⟨z.1, z.2.offset, encoded (offsetOf l) z.2⟩

/-- The instructions of a body as a layout has them. -/
def writtenBy (is : List Instr) (l : Layout) : List Written := (is.zip l.chunks).map (writtenAt l)

theorem flatMap_bytes (l : Layout) (zs : List (Instr × Placed)) :
    (zs.map (writtenAt l)).flatMap Written.bytes = (zs.map Prod.snd).flatMap (encoded (offsetOf l)) := by
  rw [flatMap_map, flatMap_map]
  rfl

/-- Where a label is, seen from the instructions. -/
theorem standsAt_of_resolve (hkinds : List.Forall₂ (fun i p => p.chunk.IsOf i) is l.chunks)
    (h : resolve l.marks name = .ok offset) : StandsAt (writtenBy is l) name offset := by
  obtain ⟨hlength, hzip⟩ := forall₂_iff_zip.mp hkinds
  obtain ⟨pre, p, post, hchunks, hmark, hoffset, hlast⟩ := last_mark_of_resolve h
  have hsnd : (is.zip l.chunks).map Prod.snd = pre ++ p :: post := (map_snd_zip hlength.ge).trans hchunks
  obtain ⟨zpre, _, hz, -, hzs⟩ := map_eq_append_iff.mp hsnd
  obtain ⟨z, zpost, rfl, rfl, rfl⟩ := map_eq_cons_iff.mp hzs
  have hkind : ∀ y ∈ zpre ++ z :: zpost, y.2.chunk.IsOf y.1 := fun y hy => hzip (hz ▸ hy)
  refine ⟨zpre.map (writtenAt l), writtenAt l z, zpost.map (writtenAt l), ?_, ?_, hoffset, ?_⟩
  · rw [writtenBy, hz, map_append, map_cons]
  · exact ((hkind z (by simp)).mark name).mp hmark
  · intro v hv hlabel
    obtain ⟨y, hy, rfl⟩ := mem_map.mp hv
    exact hlast y.2 (mem_map_of_mem hy) (((hkind y (by simp [hy])).mark name).mpr hlabel)

/-- What a body is assembled to is written as it was laid out. -/
theorem emission_of_assemble (h : assemble b pool = .ok code q) :
    ∃ cs p l, Encoding.chunks [] b.code.instrs pool = .ok cs p ∧ Layout.of cs = .ok l ∧
      Emission b.code.instrs l code.code (writtenBy b.code.instrs l) := by
  obtain ⟨cs, p, l, _, hcs, hof, hsize, hdata, hcode⟩ := steps_of_assemble h
  obtain ⟨_, hmade, hinterned⟩ := Encoding.interned_of_chunks hcs
  subst hmade
  obtain ⟨n, -, hrounds⟩ := rounds_of cs
  rw [hof] at hrounds
  obtain ⟨hchunks, hconsecutive, hsettled⟩ := hrounds.settled
  rw [map_map, Function.comp_def, map_id'] at hchunks
  have hkinds : Forall₂ (fun i p => p.chunk.IsOf i) b.code.instrs l.chunks := by
    have hof := hinterned.isOf
    rwa [← hchunks, forall₂_map_right_iff] at hof
  obtain ⟨hlength, hzip⟩ := forall₂_iff_zip.mp hkinds
  have hsnd : (b.code.instrs.zip l.chunks).map Prod.snd = l.chunks := map_snd_zip hlength.ge
  have hwritten : ∀ p ∈ l.chunks, (∀ t ∈ p.chunk.targets, resolve l.marks t = .ok (offsetOf l t)) := by
    intro p hp
    obtain ⟨d, -, hd⟩ := exists_of_forall₂_left (mapM_eq_ok.mp hdata) hp
    exact (encoded_of_bytes hd).1
  have hbytes : code.code = l.chunks.flatMap (encoded (offsetOf l)) := by
    rw [mapM_eq_map fun p hp => bytes_eq (hwritten p hp)] at hdata
    rw [hcode, ← Except.ok.inj hdata, flatMap]
  refine ⟨cs, p, l, hcs, hof, ?_, ?_, ?_, ?_, ?_, ?_⟩
  · rw [writtenBy, map_map]
    exact map_fst_zip hlength.le
  · conv_rhs => rw [← hsnd, map_map]
    rw [writtenBy, map_map]
    rfl
  · rw [hbytes, writtenBy, flatMap_bytes, hsnd]
  · rw [hbytes, ← length_of_consecutive (offsetOf l) hconsecutive, zero_add]
  · intro _ w _ hsplit
    obtain ⟨_, _, hz, rfl, hzs⟩ := map_eq_append_iff.mp hsplit
    obtain ⟨z, _, rfl, rfl, rfl⟩ := map_eq_cons_iff.mp hzs
    rw [← hsnd, hz, map_append] at hconsecutive
    obtain ⟨_, hpre, hmid, -⟩ := consecutive_append.mp hconsecutive
    have hlen := length_of_consecutive (offsetOf l) hpre
    rw [flatMap_bytes, ← zero_add (length _), hlen]
    exact hmid
  · intro w hw
    obtain ⟨z, hz, rfl⟩ := mem_map.mp hw
    have hplaced : z.2 ∈ l.chunks := hsnd ▸ mem_map_of_mem hz
    refine hasForm_encoded (hzip hz) (fun t ht => ?_) ?_ fun t ht hshort => ?_
    · have hresolve := hwritten z.2 hplaced t ht
      obtain ⟨m, hm, -, hoffset⟩ := resolve_eq_ok hresolve
      have hbound := (hconsecutive.bounds hm).2
      exact ⟨standsAt_of_resolve hkinds hresolve, by omega⟩
    · have hbound := (hconsecutive.bounds hplaced).2
      omega
    · obtain ⟨_, hoffset, hnear⟩ := hsettled z.2 hplaced t ht hshort
      rw [hwritten z.2 hplaced t (Chunk.mem_targets_of_target? ht)] at hoffset
      cases hoffset
      exact hnear

/-- Laying out a body takes at most one layout more than it has jumps, and there is one number of layouts and one
result that the loop can come to. Whatever is assembled has the size that was computed, each entry stands at its
offset, and every displacement leads to its label. -/
theorem assemble_exact (b : Body) (pool : Pool) :
    (∀ cs q, Encoding.chunks [] b.code.instrs pool = .ok cs q →
      ∃ n ≤ b.code.instrs.countP Instruction.isDirectJump + 1, ∀ m r,
        Rounds (cs.map (·, false)) m r ↔ m = n ∧ r = Layout.of cs) ∧
    ∀ code q, assemble b pool = .ok code q →
      ∃ cs p l ws, Encoding.chunks [] b.code.instrs pool = .ok cs p ∧ Layout.of cs = .ok l ∧
        Emission b.code.instrs l code.code ws := by
  constructor
  · intro cs q hcs
    obtain ⟨_, hmade, hinterned⟩ := Encoding.interned_of_chunks hcs
    subst hmade
    obtain ⟨n, hn, hrounds⟩ := rounds_of cs
    rw [countP_target? hinterned.isOf] at hn
    refine ⟨n, hn, fun m r => ⟨fun h => h.unique hrounds, ?_⟩⟩
    rintro ⟨rfl, rfl⟩
    exact hrounds
  · intro code q h
    obtain ⟨cs, p, l, hcs, hof, hemission⟩ := emission_of_assemble h
    exact ⟨cs, p, l, _, hcs, hof, hemission⟩

/-- A test, a switch of more than 32 KiB with padding before its operands, and a jump back unless a second test
leads to the end. The first test and the jump are made wide, the second test is not. -/
def turningBody : Body where
  maxStack := 1
  maxLocals := 1
  code := .ofInstrs
    [.label 0, .load .int 0, .branch .eq 1, .load .int 0, .tableSwitch 0 8191 0 (List.replicate 8192 0), .label 1,
      .load .int 0, .branch .ne 2, .jump 0, .label 2, .plain 0xb1]

theorem turningBody_assemble_exact :
    (∃ n ≤ 4, ∃ cs, ∀ m r, Rounds (cs.map (·, false)) m r ↔ m = n ∧ r = Layout.of cs) ∧
    ∃ code q, assemble turningBody .empty = .ok code q ∧
      code.code.take 9 = [0x1a, 0x9a, 0, 8, 0xc8, 0, 0, 0x80, 20] ∧
      code.code.drop 32792 = [0x1a, 0x9a, 0, 8, 0xc8, 0xff, 0xff, 0x7f, 0xe4, 0xb1] ∧
      ∃ l ws, Emission turningBody.code.instrs l code.code ws := by
  have hchunks : ∃ cs q, Encoding.chunks [] turningBody.code.instrs .empty = .ok cs q := ⟨_, _, rfl⟩
  have hcode : (assembleInto turningBody .empty).1.toOption.map (fun a => (a.code.take 9, a.code.drop 32792)) =
      some ([0x1a, 0x9a, 0, 8, 0xc8, 0, 0, 0x80, 20],
        [0x1a, 0x9a, 0, 8, 0xc8, 0xff, 0xff, 0x7f, 0xe4, 0xb1]) := by
    decide +kernel
  obtain ⟨hloop, hemission⟩ := assemble_exact turningBody .empty
  constructor
  · obtain ⟨cs, q, hcs⟩ := hchunks
    obtain ⟨n, hn, hrounds⟩ := hloop cs q hcs
    exact ⟨n, hn, cs, hrounds⟩
  · cases h : assemble turningBody .empty with
    | error e q =>
      simp only [assembleInto, h] at hcode
      cases hcode
    | ok code q =>
      simp only [assembleInto, h, Except.toOption, Option.map_some, Option.some.injEq, Prod.mk.injEq] at hcode
      obtain ⟨cs, p, l, ws, -, -, hemitted⟩ := hemission code q h
      exact ⟨code, q, rfl, hcode.1, hcode.2, l, ws, hemitted⟩

end Assembly

end Untangle
