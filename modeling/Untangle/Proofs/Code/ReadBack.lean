import Untangle.Proofs.Code.Assembly
import Untangle.Proofs.Code.Encoding

/-!
# Code comes back from its layout

Chunks that were placed one after the other tile the code, each at the offset where it was placed. Every
instruction comes back as it was, with its targets at the offsets of their labels, but for two: a switch by
keys comes back with its keys in order, and a conditional jump that was made wide comes back as the opposite
test and a jump.
-/

namespace Untangle

open List

variable {otherwise : Label} {cond : Condition}

namespace Decoding

variable {offset : Label → Nat} {pool : Pool} {bootstraps : List BootstrapEntry} {o t : Nat}

/-! ### Displacements -/

theorem add_toInt_near (h : Layout.isFar ((t : Int) - o) = false) :
    (o : Int) + (Int16.ofInt ((t : Int) - o)).toInt = t := by
  rw [Layout.toInt_near h]
  omega

theorem add_toInt_far (ho : o ≤ 65535) (ht : t ≤ 65535) : (o : Int) + (Int32.ofInt ((t : Int) - o)).toInt = t := by
  rw [Layout.toInt_far ⟨by omega, by omega⟩]
  omega

theorem tiled_singleton {data : List UInt8} {i : Decoded} (h : Spelled pool bootstraps o data i) :
    Tiled pool bootstraps o data [(o, i)] := by
  rw [← append_nil data]
  exact .tile h (.done _)

/-! ### Switches -/

/-- The padding of a switch ends at a multiple of four. -/
theorem length_switchPadding (o : Nat) : (List.replicate (Chunk.switchPadding o) (0 : UInt8)).length < 4 ∧
    (o + 1 + (List.replicate (Chunk.switchPadding o) (0 : UInt8)).length) % 4 = 0 := by
  rw [length_replicate, Chunk.switchPadding]
  omega

theorem spelled_tableSwitch {low high : Int32} {targets : List Label}
    (hfits : (targets.length : Int) = high.toInt - low.toInt + 1) (ho : o ≤ 65535)
    (ht : ∀ t ∈ otherwise :: targets, offset t ≤ 65535) :
    Spelled pool bootstraps o
      (Opcode.tableswitch :: List.replicate (Chunk.switchPadding o) 0 ++
        (Assembly.far ((offset otherwise : Int) - o) ++ (Bytes.be32 low.toUInt32 ++ (Bytes.be32 high.toUInt32 ++
          targets.flatMap fun t => Assembly.far ((offset t : Int) - o)))))
      (.tableSwitch low high (offset otherwise) (targets.map fun t => (offset t : Int))) := by
  rw [forall_mem_cons] at ht
  have hs := @Spelled.tableSwitch pool bootstraps o _ low high (Int32.ofInt ((offset otherwise : Int) - o))
    (targets.map fun t => Int32.ofInt ((offset t : Int) - o)) (length_switchPadding o) (by rwa [length_map])
  have htargets : (targets.map fun t => Int32.ofInt ((offset t : Int) - o)).map (fun d => (o : Int) + d.toInt) =
      targets.map fun t => (offset t : Int) := by
    rw [map_map]
    exact map_congr_left fun t hmem => add_toInt_far ho (ht.2 t hmem)
  rwa [htargets, flatMap_map, add_toInt_far ho ht.1] at hs

theorem spelled_lookupSwitch {pairs : List (Int32 × Label)} (hlen : pairs.length ≤ 65535) (ho : o ≤ 65535)
    (ht : ∀ t ∈ otherwise :: pairs.map Prod.snd, offset t ≤ 65535) :
    Spelled pool bootstraps o
      (Opcode.lookupswitch :: List.replicate (Chunk.switchPadding o) 0 ++
        (Assembly.far ((offset otherwise : Int) - o) ++ (Bytes.count32 pairs.length ++
          pairs.flatMap fun kt => Bytes.be32 kt.1.toUInt32 ++ Assembly.far ((offset kt.2 : Int) - o))))
      (.lookupSwitch (offset otherwise) (pairs.map fun kt => (kt.1, (offset kt.2 : Int)))) := by
  rw [forall_mem_cons] at ht
  have hcount : (Int32.ofNat pairs.length).toInt = pairs.length :=
    Int32.toInt_ofNat_of_lt (by simp only [Nat.reducePow]; omega)
  have hs := @Spelled.lookupSwitch pool bootstraps o _ (Int32.ofInt ((offset otherwise : Int) - o))
    (Int32.ofNat pairs.length) (pairs.map fun kt => (kt.1, Int32.ofInt ((offset kt.2 : Int) - o)))
    (length_switchPadding o) (by rwa [length_map])
  have hpairs : (pairs.map fun kt => (kt.1, Int32.ofInt ((offset kt.2 : Int) - o))).map
      (fun kd => (kd.1, (o : Int) + kd.2.toInt)) = pairs.map fun kt => (kt.1, (offset kt.2 : Int)) := by
    rw [map_map]
    refine map_congr_left fun kt hmem => ?_
    rw [Function.comp_apply, add_toInt_far ho (ht.2 _ (mem_map_of_mem hmem))]
  rwa [hpairs, flatMap_map, add_toInt_far ho ht.1] at hs

/-! ### Jumps -/

theorem spelled_branch (h : Layout.isFar ((t : Int) - o) = false) :
    Spelled pool bootstraps o (cond.opcode :: Assembly.near ((t : Int) - o)) (.branch cond t) := by
  have hs : Spelled pool bootstraps o _ _ := .branch cond (Int16.ofInt ((t : Int) - o))
  rwa [add_toInt_near h] at hs

/-- A conditional jump made wide is the opposite test over a jump. -/
theorem tiled_wideBranch (ho : o ≤ 65535) (ht : t ≤ 65535) :
    Tiled pool bootstraps o
      (cond.invert.opcode :: (Assembly.near 8 ++ Opcode.gotoW :: Assembly.far ((t : Int) - o - 3)))
      [(o, .branch cond.invert (o + 8)), (o + 3, .jump t)] := by
  have hover : Spelled pool bootstraps o (cond.invert.opcode :: Assembly.near 8) (.branch cond.invert (o + 8)) :=
    .branch cond.invert 8
  have hjump : Spelled pool bootstraps (o + 3) _ _ := .jumpFar (Int32.ofInt ((t : Int) - o - 3))
  rw [Layout.toInt_far ⟨by omega, by omega⟩] at hjump
  have heq : ((o + 3 : Nat) : Int) + ((t : Int) - o - 3) = t := by omega
  rw [heq] at hjump
  exact (tiled_singleton hover).append (tiled_singleton hjump)

/-- A jump is spelled by the short form and by the wide one. -/
theorem spelled_jump {short long : UInt8} {make : Int → Decoded} {wide : Bool}
    (hs : ∀ d : Int16, Spelled pool bootstraps o (short :: Bytes.be16 d.toUInt16) (make (o + d.toInt)))
    (hl : ∀ d : Int32, Spelled pool bootstraps o (long :: Bytes.be32 d.toUInt32) (make (o + d.toInt)))
    (hfar : wide = false → Layout.isFar ((t : Int) - o) = false) (ho : o ≤ 65535) (ht : t ≤ 65535) :
    Spelled pool bootstraps o (Assembly.jump short long wide o t) (make t) := by
  cases wide with
  | false =>
    rw [← add_toInt_near (hfar rfl)]
    exact hs _
  | true =>
    rw [← add_toInt_far ho ht]
    exact hl _

end Decoding

/-! ### Placed chunks -/

/-- The instruction with the keys of a switch in ascending order; equal keys stay in their order. -/
def Instruction.keysInOrder {τ : Type} : Instruction τ → Instruction τ
  | lookupSwitch otherwise pairs => lookupSwitch otherwise (pairs.mergeSort fun a b => a.1 ≤ b.1)
  | i => i

namespace Assembly

open Decoding Encoding

/-- What is read back from offset `o`, where the instruction was placed. -/
def readBack (offset : Label → Nat) (wide : Bool) (o : Nat) (i : Instr) : List (Nat × Decoded) :=
  match i with
  | .branch cond target =>
    if wide then [(o, .branch cond.invert (o + 8)), (o + 3, .jump (offset target))]
    else [(o, .branch cond (offset target))]
  | i => if i.isReal then [(o, i.keysInOrder.mapTargets fun t => (offset t : Int))] else []

/-- A chunk has as many bytes as were set aside for it. -/
theorem length_encoded (offset : Label → Nat) (p : Placed) : (encoded offset p).length = p.size := by
  obtain ⟨c, wide, o⟩ := p
  cases c with
  | mark | line | fixed => rfl
  | branch _ t => cases wide <;> rfl
  | jump t | callSub t => cases wide <;> rfl
  | tableSwitch _ _ otherwise =>
    simp only [encoded, Placed.size, Chunk.size]
    simp [far]
    omega
  | lookupSwitch otherwise =>
    simp only [encoded, Placed.size, Chunk.size]
    simp [far, Bytes.count32]
    omega

variable {pool q : Pool} {bootstraps : List BootstrapEntry} {offset : Label → Nat} {p : Placed} {i : Instr}

/-- The bytes of a placed instruction are tiled by what is read back from them. -/
theorem tiled_encoded (hc : Writes q bootstraps p.chunk i) (hpool : pool.Extends q) (hfits : i.TableFits)
    (hend : p.size ≤ 65535) (ho : p.offset ≤ 65535) (ht : ∀ t ∈ i.targets, offset t ≤ 65535)
    (hshort : ∀ t, p.chunk.target? = some t → p.wide = false → Layout.isFar ((offset t : Int) - p.offset) = false) :
    Tiled pool bootstraps p.offset (encoded offset p) (readBack offset p.wide p.offset i) := by
  obtain ⟨c, wide, o⟩ := p
  cases i with
  | label name | line number =>
    cases hc
    exact .done o
  | jump t =>
    cases hc
    exact tiled_singleton (spelled_jump .jump .jumpFar (hshort t rfl) ho (ht t (mem_singleton_self t)))
  | callSub t =>
    cases hc
    exact tiled_singleton (spelled_jump .callSub .callSubFar (hshort t rfl) ho (ht t (mem_singleton_self t)))
  | branch _ t =>
    cases hc
    cases wide with
    | false => exact tiled_singleton (spelled_branch (hshort t rfl rfl))
    | true => exact tiled_wideBranch ho (ht t (mem_singleton_self t))
  | tableSwitch _ _ otherwise targets =>
    cases hc
    refine tiled_singleton (spelled_tableSwitch hfits ho fun t hmem => ht t ?_)
    exact (perm_append_singleton otherwise targets).mem_iff.mpr hmem
  | lookupSwitch otherwise pairs =>
    cases hc
    simp only [Placed.size, Chunk.size] at hend
    have hperm := (mergeSort_perm pairs fun a b => a.1 ≤ b.1).map Prod.snd
    refine tiled_singleton (spelled_lookupSwitch (by omega) ho fun t hmem => ht t ?_)
    exact ((perm_append_singleton otherwise _).trans (hperm.symm.cons _)).mem_iff.mpr hmem
  | _ =>
    obtain ⟨_, hdata, hs⟩ := hc
    cases hdata
    exact tiled_singleton (hs _ pool o hpool)

end Assembly

end Untangle
