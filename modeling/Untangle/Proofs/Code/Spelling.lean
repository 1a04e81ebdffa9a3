import Mathlib.Tactic.IntervalCases
import Untangle.Proofs.Code.Readers

/-!
# How instructions are spelled

The format of code, said without a reader: `Spelled` lists for every instruction the bytes that stand for it
at an offset, and `Tiled` cuts code into such stretches from its start to its end. An instruction can have
several spellings, but no bytes spell two instructions, because the decoder accepts exactly the bytes that
spell something and reads them as what they spell.
-/

namespace Untangle

open List

variable {data code : List UInt8} {opcode : UInt8} {shape : Shape} {i : Decoded} {rest : List UInt8} {otherwise : Int32}
  {steps : Nat} {done : List (Nat × Decoded)}

/-! ### The format -/

namespace Decoding

open Bytes Opcode

/-- The opcodes that nothing follows and that are kept by their number: `nop`, the loads and stores of array
elements, conversions and comparisons, `arraylength` and the two monitor instructions. -/
def isPlain (opcode : UInt8) : Bool :=
  opcode = nop ∨ (0x2e ≤ opcode ∧ opcode ≤ 0x35) ∨ (0x4f ≤ opcode ∧ opcode ≤ 0x56) ∨
    (0x85 ≤ opcode ∧ opcode ≤ 0x98) ∨ opcode = 0xbe ∨ opcode = 0xc2 ∨ opcode = 0xc3

section

variable (pool : Pool) (bootstraps : List BootstrapEntry) (o : Nat)

/-- These bytes at offset `o` stand for this instruction. Slots are looked up in the pool, displacements count
from the opcode, and the operands of a switch start at a multiple of four. -/
inductive Spelled : List UInt8 → Decoded → Prop
  | plain {opcode : UInt8} (h : isPlain opcode) : Spelled [opcode] (.plain opcode)
  | null : Spelled [aconstNull] (.push .null)
  | int {v : Int32} (h : -1 ≤ v ∧ v ≤ 5) : Spelled [iconst0 + v.toInt8.toUInt8] (.push (.int v))
  | long {v : Int64} (h : 0 ≤ v ∧ v ≤ 1) : Spelled [lconst0 + v.toInt8.toUInt8] (.push (.long v))
  | float {bits : UInt32} {i : Nat} (h : floatBits.idxOf? bits = some i) :
    Spelled [fconst0 + UInt8.ofNat i] (.push (.float bits))
  | double {bits : UInt64} {i : Nat} (h : doubleBits.idxOf? bits = some i) :
    Spelled [dconst0 + UInt8.ofNat i] (.push (.double bits))
  | byte (v : Int8) : Spelled [bipush, v.toUInt8] (.push (.int (Int32.ofInt v.toInt)))
  | short (v : Int16) : Spelled (sipush :: be16 v.toUInt16) (.push (.int (Int32.ofInt v.toInt)))
  | constantNear {slot : UInt8} {value : Literal} (h : pool.loadable slot.toUInt16 false = .ok value) :
    Spelled [ldc, slot] (.push value)
  | constant {slot : UInt16} {value : Literal} (h : pool.loadable slot false = .ok value) :
    Spelled (ldcW :: be16 slot) (.push value)
  | constantWide {slot : UInt16} {value : Literal} (h : pool.loadable slot true = .ok value) :
    Spelled (ldc2W :: be16 slot) (.push value)
  | load (kind : ValueKind) (slot : UInt8) : Spelled [iload + kind.index, slot] (.load kind slot.toUInt16)
  | loadFirst (kind : ValueKind) {slot : UInt16} (h : slot ≤ 3) :
    Spelled [iload0 + kind.index * 4 + slot.toUInt8] (.load kind slot)
  | loadWide (kind : ValueKind) (slot : UInt16) : Spelled (wide :: (iload + kind.index) :: be16 slot) (.load kind slot)
  | store (kind : ValueKind) (slot : UInt8) : Spelled [istore + kind.index, slot] (.store kind slot.toUInt16)
  | storeFirst (kind : ValueKind) {slot : UInt16} (h : slot ≤ 3) :
    Spelled [istore0 + kind.index * 4 + slot.toUInt8] (.store kind slot)
  | storeWide (kind : ValueKind) (slot : UInt16) :
    Spelled (wide :: (istore + kind.index) :: be16 slot) (.store kind slot)
  | increment (slot : UInt8) (delta : Int8) :
    Spelled [iinc, slot, delta.toUInt8] (.increment slot.toUInt16 (Int16.ofInt delta.toInt))
  | incrementWide (slot : UInt16) (delta : Int16) :
    Spelled (wide :: iinc :: (be16 slot ++ be16 delta.toUInt16)) (.increment slot delta)
  | stack (op : StackOp) : Spelled [op.opcode] (.stack op)
  | math {kind : NumKind} {op : MathOp} {opcode : UInt8} (h : mathOpcode? kind op = some opcode) :
    Spelled [opcode] (.math kind op)
  | branch (cond : Condition) (d : Int16) : Spelled (cond.opcode :: be16 d.toUInt16) (.branch cond (o + d.toInt))
  | jump (d : Int16) : Spelled (goto :: be16 d.toUInt16) (.jump (o + d.toInt))
  | jumpFar (d : Int32) : Spelled (gotoW :: be32 d.toUInt32) (.jump (o + d.toInt))
  | callSub (d : Int16) : Spelled (jsr :: be16 d.toUInt16) (.callSub (o + d.toInt))
  | callSubFar (d : Int32) : Spelled (jsrW :: be32 d.toUInt32) (.callSub (o + d.toInt))
  | leaveSub (slot : UInt8) : Spelled [ret, slot] (.leaveSub slot.toUInt16)
  | leaveSubWide (slot : UInt16) : Spelled (wide :: ret :: be16 slot) (.leaveSub slot)
  | tableSwitch {fill : List UInt8} (low high otherwise : Int32) {targets : List Int32}
    (hfill : fill.length < 4 ∧ (o + 1 + fill.length) % 4 = 0)
    (htargets : (targets.length : Int) = high.toInt - low.toInt + 1) :
    Spelled
      (tableswitch :: (fill ++ (be32 otherwise.toUInt32 ++ (be32 low.toUInt32 ++ (be32 high.toUInt32 ++
        targets.flatMap fun d => be32 d.toUInt32)))))
      (.tableSwitch low high (o + otherwise.toInt) (targets.map fun d => o + d.toInt))
  | lookupSwitch {fill : List UInt8} (otherwise : Int32) {count : Int32} {pairs : List (Int32 × Int32)}
    (hfill : fill.length < 4 ∧ (o + 1 + fill.length) % 4 = 0) (hcount : count.toInt = pairs.length) :
    Spelled
      (lookupswitch :: (fill ++ (be32 otherwise.toUInt32 ++ (be32 count.toUInt32 ++
        pairs.flatMap fun kd => be32 kd.1.toUInt32 ++ be32 kd.2.toUInt32))))
      (.lookupSwitch (o + otherwise.toInt) (pairs.map fun kd => (kd.1, o + kd.2.toInt)))
  | leave (kind : ValueKind) : Spelled [ireturn + kind.index] (.leave (some kind))
  | leaveVoid : Spelled [vreturn] (.leave none)
  | raise : Spelled [athrow] .raise
  | field (op : FieldOp) {slot : UInt16} {member : Member} {isInterface : Bool}
    (h : pool.member slot = .ok (member, isInterface)) :
    Spelled (op.opcode :: be16 slot) (.field op member)
  | invoke {kind : InvokeKind} {slot : UInt16} {member : Member} {isInterface : Bool} (hk : kind ≠ .interface)
    (h : pool.member slot = .ok (member, isInterface)) :
    Spelled (kind.opcode :: be16 slot) (.invoke kind member isInterface)
  /-- The last two bytes say nothing that is not known already, and are not looked at. -/
  | invokeInterface {slot : UInt16} {member : Member} {isInterface : Bool} (count zero : UInt8)
    (h : pool.member slot = .ok (member, isInterface)) :
    Spelled (invokeinterface :: (be16 slot ++ [count, zero]))
      (.invoke .interface member isInterface)
  | invokeDynamic {slot : UInt16} {site : CallSite} (zero zero' : UInt8)
    (h : pool.callSite bootstraps slot = .ok site) :
    Spelled (invokedynamic :: (be16 slot ++ [zero, zero'])) (.invokeDynamic site)
  | typed (op : TypeOp) {slot : UInt16} {name : String} (h : pool.className slot = .ok name) :
    Spelled (op.opcode :: be16 slot) (.typed op name)
  | newArray (element : UInt8) : Spelled [newarray, element] (.newArray element)
  | newMultiArray {slot : UInt16} {name : String} (dims : UInt8) (h : pool.className slot = .ok name) :
    Spelled (multianewarray :: (be16 slot ++ [dims])) (.newMultiArray name dims)

end

/-- From offset `o` on, the code is cut into spelled instructions without a gap, up to its end. -/
inductive Tiled (pool : Pool) (bootstraps : List BootstrapEntry) : Nat → List UInt8 → List (Nat × Decoded) → Prop
  | done (o : Nat) : Tiled pool bootstraps o [] []
  | tile {o : Nat} {data rest : List UInt8} {i : Decoded} {ds : List (Nat × Decoded)}
    (h : Spelled pool bootstraps o data i) (hrest : Tiled pool bootstraps (o + data.length) rest ds) :
    Tiled pool bootstraps o (data ++ rest) ((o, i) :: ds)

theorem Tiled.append {es : List (Nat × Decoded)} (h : Tiled pool bootstraps o data ds)
    (hrest : Tiled pool bootstraps (o + data.length) rest es) : Tiled pool bootstraps o (data ++ rest) (ds ++ es) := by
  induction h with
  | done o => simpa using hrest
  | tile h _ ih =>
    rw [length_append, ← add_assoc] at hrest
    rw [append_assoc]
    exact .tile h (ih hrest)

/-! ### The decoder's table -/

/-- The opcodes of a shape, as the format has them. -/
def hasOpcode (opcode : UInt8) : Shape → Bool
  | .plain => isPlain opcode
  | .push .null => opcode = aconstNull
  | .push (.int v) => (-1 ≤ v ∧ v ≤ 5) ∧ opcode = iconst0 + v.toInt8.toUInt8
  | .push (.long v) => (0 ≤ v ∧ v ≤ 1) ∧ opcode = lconst0 + v.toInt8.toUInt8
  | .push (.float bits) => (floatBits.idxOf? bits).any fun i => opcode = fconst0 + UInt8.ofNat i
  | .push (.double bits) => (doubleBits.idxOf? bits).any fun i => opcode = dconst0 + UInt8.ofNat i
  | .push _ => false
  | .pushByte => opcode = bipush
  | .pushShort => opcode = sipush
  | .pushNear => opcode = ldc
  | .pushFar wide => opcode = if wide then ldc2W else ldcW
  | .load kind => opcode = iload + kind.index
  | .loadFrom kind slot => slot ≤ 3 ∧ opcode = iload0 + kind.index * 4 + slot.toUInt8
  | .store kind => opcode = istore + kind.index
  | .storeTo kind slot => slot ≤ 3 ∧ opcode = istore0 + kind.index * 4 + slot.toUInt8
  | .stack op => opcode = op.opcode
  | .math kind op => mathOpcode? kind op = some opcode
  | .increment => opcode = iinc
  | .branch cond => opcode = cond.opcode
  | .jump far => opcode = if far then gotoW else goto
  | .callSub far => opcode = if far then jsrW else jsr
  | .leaveSub => opcode = ret
  | .tableSwitch => opcode = tableswitch
  | .lookupSwitch => opcode = lookupswitch
  | .leave (some kind) => opcode = ireturn + kind.index
  | .leave none => opcode = vreturn
  | .field op => opcode = op.opcode
  | .invoke kind => opcode = kind.opcode
  | .invokeDynamic => opcode = invokedynamic
  | .typed op => opcode = op.opcode
  | .newArray => opcode = newarray
  | .newMultiArray => opcode = multianewarray
  | .raise => opcode = athrow
  | .wide => opcode = wide

/-- The decoder's table agrees with the format. -/
theorem hasOpcode_of_shape? (h : shape? opcode = some shape) : hasOpcode opcode shape = true := by
  have hall : (shape? opcode).all (hasOpcode opcode) = true :=
    forall_byte (P := fun n => (shape? n).all (hasOpcode n) = true) (by decide +kernel) opcode
  rwa [h] at hall

theorem shape?_of_isPlain (h : isPlain opcode = true) : shape? opcode = some .plain := by
  have hall : isPlain opcode = true → shape? opcode = some .plain :=
    forall_byte (P := fun n => isPlain n = true → shape? n = some .plain) (by decide +kernel) opcode
  exact hall h

variable {slot : UInt16}

/-- The numbers that have opcodes of their own are read back from these. -/
theorem shape?_iconst {v : Int32} (h : -1 ≤ v ∧ v ≤ 5) :
    shape? (iconst0 + v.toInt8.toUInt8) = some (.push (.int v)) := by
  have hlow : -1 ≤ v.toInt := Int32.le_iff_toInt_le.mp h.1
  have hhigh : v.toInt ≤ 5 := Int32.le_iff_toInt_le.mp h.2
  have hv := (Int32.ofInt_toInt v).symm
  generalize v.toInt = n at hlow hhigh hv
  subst hv
  interval_cases n <;> rfl

theorem shape?_lconst {v : Int64} (h : 0 ≤ v ∧ v ≤ 1) :
    shape? (lconst0 + v.toInt8.toUInt8) = some (.push (.long v)) := by
  have hlow : 0 ≤ v.toInt := Int64.le_iff_toInt_le.mp h.1
  have hhigh : v.toInt ≤ 1 := Int64.le_iff_toInt_le.mp h.2
  have hv := (Int64.ofInt_toInt v).symm
  generalize v.toInt = n at hlow hhigh hv
  subst hv
  interval_cases n <;> rfl

theorem shape?_fconst {bits : UInt32} {i : Nat} (h : floatBits.idxOf? bits = some i) :
    shape? (fconst0 + UInt8.ofNat i) = some (.push (.float bits)) := by
  obtain ⟨hi, rfl, -⟩ := idxOf?_eq_some_iff.mp h
  have hlt : i < 3 := hi
  interval_cases i <;> rfl

theorem shape?_dconst {bits : UInt64} {i : Nat} (h : doubleBits.idxOf? bits = some i) :
    shape? (dconst0 + UInt8.ofNat i) = some (.push (.double bits)) := by
  obtain ⟨hi, rfl, -⟩ := idxOf?_eq_some_iff.mp h
  have hlt : i < 2 := hi
  interval_cases i <;> rfl

/-- Of the first four slots, each has an opcode for every kind. -/
theorem shape?_loadFrom (kind : ValueKind) (h : slot ≤ 3) :
    shape? (iload0 + kind.index * 4 + slot.toUInt8) = some (.loadFrom kind slot) := by
  have hle : slot.toNat ≤ 3 := UInt16.le_iff_toNat_le.mp h
  rw [← UInt16.ofNat_toNat (x := slot)]
  interval_cases slot.toNat <;> cases kind <;> rfl

theorem shape?_storeTo (kind : ValueKind) (h : slot ≤ 3) :
    shape? (istore0 + kind.index * 4 + slot.toUInt8) = some (.storeTo kind slot) := by
  have hle : slot.toNat ≤ 3 := UInt16.le_iff_toNat_le.mp h
  rw [← UInt16.ofNat_toNat (x := slot)]
  interval_cases slot.toNat <;> cases kind <;> rfl

theorem shape?_load (kind : ValueKind) : shape? (iload + kind.index) = some (.load kind) := by
  cases kind <;> rfl

theorem shape?_store (kind : ValueKind) : shape? (istore + kind.index) = some (.store kind) := by
  cases kind <;> rfl

theorem shape?_stack (op : StackOp) : shape? op.opcode = some (.stack op) := by
  cases op <;> rfl

section

-- opcodes are compared with those of the table one after the other
set_option maxRecDepth 2000

theorem shape?_field (op : FieldOp) : shape? op.opcode = some (.field op) := by
  cases op <;> rfl

theorem shape?_invoke (kind : InvokeKind) : shape? kind.opcode = some (.invoke kind) := by
  cases kind <;> rfl

theorem shape?_typed (op : TypeOp) : shape? op.opcode = some (.typed op) := by
  cases op <;> rfl

theorem shape?_leave (kind : ValueKind) : shape? (ireturn + kind.index) = some (.leave (some kind)) := by
  cases kind <;> rfl

theorem shape?_math {kind : NumKind} {op : MathOp} (h : mathOpcode? kind op = some opcode) :
    shape? opcode = some (.math kind op) := by
  have hall : (mathOpcode? kind op).all fun o => shape? o = some (.math kind op) := by
    cases kind <;> cases op <;> rfl
  rw [h] at hall
  simpa using hall

theorem shape?_branch (cond : Condition) : shape? cond.opcode = some (.branch cond) := by
  cases cond <;> rfl

end

/-! ### One instruction -/

section Reading

variable {pool : Pool} {bootstraps : List BootstrapEntry} {size o : Nat} {fill : List UInt8}
  {ds : List (Nat × Decoded)}

open CodeReader

theorem Spelled.ne_nil (h : Spelled pool bootstraps o data i) : data ≠ [] := by
  cases h <;> exact cons_ne_nil _ _

/-- An opcode that is known is followed by its operands. -/
theorem instruction_cons (size offset : Nat) (rest : List UInt8) :
    instruction pool bootstraps size ⟨offset, opcode :: rest⟩ = (match shape? opcode with
      | some shape => operands pool bootstraps size offset opcode shape
      | none => throw (Error.unknownOpcode opcode offset)) ⟨offset + 1, rest⟩ := rfl

/-- An instruction is read from its opcode and what its shape says to follow. -/
theorem reads_instruction (shape : Shape) (hs : shape? opcode = some shape)
    (h : Reads (operands pool bootstraps size o opcode shape) (o + 1) data i) :
    Reads (instruction pool bootstraps size) o (opcode :: data) i := by
  intro rest
  rw [cons_append, instruction_cons, hs]
  refine (h rest).trans ?_
  rw [length_cons, add_assoc, add_comm 1]

/-- The wide form of an instruction is read as the instruction. -/
theorem reads_wide (shape : Shape) (hs : shape? opcode = some shape)
    (h : Reads (match shape with
      | .load kind => return .load kind slot
      | .store kind => return .store kind slot
      | .leaveSub => return .leaveSub slot
      | .increment => do return .increment slot (← u16).toInt16
      | _ => throw (.unknownOpcode opcode (o + 1))) (o + 4) data i) :
    Reads (instruction pool bootstraps size) o (wide :: opcode :: (Bytes.be16 slot ++ data)) i := by
  refine reads_instruction .wide rfl ((reads_u8 opcode _).bind ((reads_u16 slot _).bind ?_))
  rw [hs]
  cases shape <;> exact h

theorem length_eq_padding : fill.length = padding o ↔ fill.length < 4 ∧ (o + 1 + fill.length) % 4 = 0 := by
  unfold padding
  omega

theorem reads_displacement16 (d : Int16) (origin o : Nat) :
    Reads (near origin) o (be16 d.toUInt16) (origin + d.toInt) := by
  have hr := (reads_u16 d.toUInt16 o).map fun n => (origin : Int) + n.toInt16.toInt
  rwa [Int16.toInt16_toUInt16] at hr

theorem reads_displacement32 (d : Int32) (origin o : Nat) :
    Reads (far origin) o (be32 d.toUInt32) (origin + d.toInt) := (reads_i32 d o).map _

section

variable (hfill : fill.length < 4 ∧ (o + 1 + fill.length) % 4 = 0)

include hfill

theorem reads_fill (o' : Nat) : Reads (skip (padding o)) o' fill () := by
  rw [← length_eq_padding.mpr hfill]
  exact reads_skip fill o'

/-- A switch by range is read if it has as many targets as its range has keys: they fit into the code. -/
theorem reads_tableSpelling {low high : Int32} {targets : List Int32}
    (htargets : (targets.length : Int) = high.toInt - low.toInt + 1)
    (hdata : data = tableswitch :: (fill ++ (be32 otherwise.toUInt32 ++ (be32 low.toUInt32 ++ (be32 high.toUInt32 ++
      targets.flatMap fun d => be32 d.toUInt32))))) (hsize : data.length ≤ size) :
    Reads (instruction pool bootstraps size) o data
      (.tableSwitch low high (o + otherwise.toInt) (targets.map fun d => o + d.toInt)) := by
  subst hdata
  refine reads_instruction .tableSwitch rfl ((reads_fill hfill _).bind ?_)
  refine (reads_displacement32 otherwise o _).bind ((reads_i32 low _).bind ((reads_i32 high _).bind ?_))
  simp only [length_cons, length_append, length_flatMap, length_be32, map_const', sum_replicate_nat] at hsize
  have hcount : ¬ ((decide ((targets.length : Int) < 0) || decide ((targets.length : Int) * 4 > size)) = true) := by
    simp only [Bool.or_eq_true, decide_eq_true_eq]
    omega
  simp only [← htargets, if_neg hcount]
  exact (reads_repeated _ _ (fun d _ => reads_displacement32 d o) [] _).map _

theorem reads_lookupSpelling {count : Int32} {pairs : List (Int32 × Int32)} (hcount : count.toInt = pairs.length)
    (hdata : data = lookupswitch :: (fill ++ (be32 otherwise.toUInt32 ++ (be32 count.toUInt32 ++
      pairs.flatMap fun kd => be32 kd.1.toUInt32 ++ be32 kd.2.toUInt32)))) (hsize : data.length ≤ size) :
    Reads (instruction pool bootstraps size) o data
      (.lookupSwitch (o + otherwise.toInt) (pairs.map fun kd => (kd.1, o + kd.2.toInt))) := by
  subst hdata
  refine reads_instruction .lookupSwitch rfl ((reads_fill hfill _).bind ?_)
  refine (reads_displacement32 otherwise o _).bind ((reads_i32 count _).bind ?_)
  simp only [length_cons, length_append, length_flatMap, length_be32, map_const', sum_replicate_nat] at hsize
  have hfits : ¬ ((decide ((pairs.length : Int) < 0) || decide ((pairs.length : Int) * 8 > size)) = true) := by
    simp only [Bool.or_eq_true, decide_eq_true_eq]
    omega
  simp only [hcount, if_neg hfits]
  exact (reads_repeated _ _
    (fun kd _ o' => (reads_i32 kd.1 o').bind ((reads_displacement32 kd.2 o _).map _)) [] _).map _

end

theorem takes_tableSwitch :
    Takes (tableSwitch size o) (o + 1) fun data => Spelled pool bootstraps o (tableswitch :: data) := by
  refine (takes_skip _).bind fun fill _ hfill => (takes_far o).bind ?_
  rintro _ _ ⟨otherwise, rfl, rfl⟩
  refine takes_i32.bind ?_
  rintro _ low rfl
  refine takes_i32.bind ?_
  rintro _ high rfl
  dsimp only
  split
  · exact (takes_throw _).bind (P := fun _ _ => False) fun _ _ h => h.elim
  rename_i hcount
  simp only [Bool.or_eq_true, decide_eq_true_eq] at hcount
  refine (takes_repeated (fun _ => takes_far o) _ [] _).bind ?_
  rintro _ _ ⟨_, htargets, rfl, rfl⟩
  refine takes_pure ?_
  rw [append_nil]
  exact .tableSwitch low high otherwise (length_eq_padding.mp hfill) (by omega)

theorem takes_lookupSwitch :
    Takes (lookupSwitch size o) (o + 1) fun data => Spelled pool bootstraps o (lookupswitch :: data) := by
  refine (takes_skip _).bind fun fill _ hfill => (takes_far o).bind ?_
  rintro _ _ ⟨otherwise, rfl, rfl⟩
  refine takes_i32.bind ?_
  rintro _ _ rfl
  dsimp only
  split
  · exact (takes_throw _).bind (P := fun _ _ => False) fun _ _ h => h.elim
  rename_i hcount
  simp only [Bool.or_eq_true, decide_eq_true_eq] at hcount
  have hpair : ∀ o', Takes (do
      let key ← i32
      return (key, ← far o)) o' fun data a => ∃ kd : Int32 × Int32,
        data = be32 kd.1.toUInt32 ++ be32 kd.2.toUInt32 ∧ a = (kd.1, (o : Int) + kd.2.toInt) := by
    intro o'
    refine takes_i32.bind ?_
    rintro _ key rfl
    refine (takes_far o).bind ?_
    rintro _ _ ⟨d, rfl, rfl⟩
    refine takes_pure ⟨(key, d), ?_, rfl⟩
    rw [append_nil]
  refine (takes_repeated hpair _ [] _).bind ?_
  rintro _ _ ⟨_, hpairs, rfl, rfl⟩
  refine takes_pure ?_
  rw [append_nil]
  exact .lookupSwitch otherwise (length_eq_padding.mp hfill) (by omega)

theorem takes_widened : Takes (widened o) (o + 1) fun data => Spelled pool bootstraps o (wide :: data) := by
  refine takes_u8.bind ?_
  rintro _ _ rfl
  refine takes_u16.bind ?_
  rintro _ slot rfl
  split
  case h_1 kind hs =>
    obtain rfl := of_decide_eq_true (hasOpcode_of_shape? hs)
    exact takes_pure (.loadWide kind slot)
  case h_2 kind hs =>
    obtain rfl := of_decide_eq_true (hasOpcode_of_shape? hs)
    exact takes_pure (.storeWide kind slot)
  case h_3 hs =>
    obtain rfl := of_decide_eq_true (hasOpcode_of_shape? hs)
    exact takes_pure (.leaveSubWide slot)
  case h_4 hs =>
    obtain rfl := of_decide_eq_true (hasOpcode_of_shape? hs)
    refine takes_u16.bind ?_
    rintro _ delta rfl
    have hspelled : Spelled pool bootstraps o _ _ := .incrementWide slot delta.toInt16
    exact takes_pure hspelled
  case h_5 => exact takes_throw _

/-- Whatever is read after an opcode was spelled by it and the bytes that follow. -/
theorem takes_operands (hs : shape? opcode = some shape) :
    Takes (operands pool bootstraps size o opcode shape) (o + 1) fun data =>
      Spelled pool bootstraps o (opcode :: data) := by
  have hop := hasOpcode_of_shape? hs
  cases shape with
  | plain => exact takes_pure (.plain hop)
  | push value =>
    refine takes_pure ?_
    cases value with
    | null =>
      obtain rfl := of_decide_eq_true hop
      exact .null
    | int v =>
      obtain ⟨hv, rfl⟩ := of_decide_eq_true hop
      exact .int hv
    | long v =>
      obtain ⟨hv, rfl⟩ := of_decide_eq_true hop
      exact .long hv
    | float bits =>
      obtain ⟨i, hi, heq⟩ := (Option.any_eq_true _ _).mp hop
      obtain rfl := of_decide_eq_true heq
      exact .float hi
    | double bits =>
      obtain ⟨i, hi, heq⟩ := (Option.any_eq_true _ _).mp hop
      obtain rfl := of_decide_eq_true heq
      exact .double hi
    | _ => cases hop
  | pushByte =>
    obtain rfl := of_decide_eq_true hop
    refine takes_byte fun n => ?_
    have hspelled : Spelled pool bootstraps o _ _ := .byte n.toInt8
    rwa [UInt8.toUInt8_toInt8] at hspelled
  | pushShort =>
    obtain rfl := of_decide_eq_true hop
    refine takes_u16.bind ?_
    rintro _ n rfl
    refine takes_pure ?_
    have hspelled : Spelled pool bootstraps o _ _ := .short n.toInt16
    rwa [UInt16.toUInt16_toInt16] at hspelled
  | pushNear =>
    obtain rfl := of_decide_eq_true hop
    refine takes_u8.bind ?_
    rintro _ slot rfl
    refine (takes_lift _).bind ?_
    rintro _ value ⟨rfl, hvalue⟩
    exact takes_pure (.constantNear hvalue)
  | pushFar wide =>
    refine takes_slot fun slot value hvalue => ?_
    cases wide with
    | false =>
      obtain rfl := of_decide_eq_true hop
      exact .constant hvalue
    | true =>
      obtain rfl := of_decide_eq_true hop
      exact .constantWide hvalue
  | load kind =>
    obtain rfl := of_decide_eq_true hop
    exact takes_byte (.load kind)
  | loadFrom kind slot =>
    obtain ⟨hslot, rfl⟩ := of_decide_eq_true hop
    exact takes_pure (.loadFirst kind hslot)
  | store kind =>
    obtain rfl := of_decide_eq_true hop
    exact takes_byte (.store kind)
  | storeTo kind slot =>
    obtain ⟨hslot, rfl⟩ := of_decide_eq_true hop
    exact takes_pure (.storeFirst kind hslot)
  | stack op =>
    obtain rfl := of_decide_eq_true hop
    exact takes_pure (.stack op)
  | math kind op => exact takes_pure (.math (of_decide_eq_true hop))
  | increment =>
    obtain rfl := of_decide_eq_true hop
    refine takes_u8.bind ?_
    rintro _ slot rfl
    refine takes_u8.bind ?_
    rintro _ delta rfl
    refine takes_pure ?_
    have hspelled : Spelled pool bootstraps o _ _ := .increment slot delta.toInt8
    rwa [UInt8.toUInt8_toInt8] at hspelled
  | branch cond =>
    obtain rfl := of_decide_eq_true hop
    exact takes_nearTarget (.branch cond)
  | jump far =>
    cases far with
    | false =>
      obtain rfl := of_decide_eq_true hop
      exact takes_nearTarget .jump
    | true =>
      obtain rfl := of_decide_eq_true hop
      exact takes_farTarget .jumpFar
  | callSub far =>
    cases far with
    | false =>
      obtain rfl := of_decide_eq_true hop
      exact takes_nearTarget .callSub
    | true =>
      obtain rfl := of_decide_eq_true hop
      exact takes_farTarget .callSubFar
  | leaveSub =>
    obtain rfl := of_decide_eq_true hop
    exact takes_byte .leaveSub
  | tableSwitch =>
    obtain rfl := of_decide_eq_true hop
    exact takes_tableSwitch
  | lookupSwitch =>
    obtain rfl := of_decide_eq_true hop
    exact takes_lookupSwitch
  | leave kind =>
    refine takes_pure ?_
    cases kind with
    | none =>
      obtain rfl := of_decide_eq_true hop
      exact .leaveVoid
    | some kind =>
      obtain rfl := of_decide_eq_true hop
      exact .leave kind
  | field op =>
    obtain rfl := of_decide_eq_true hop
    exact takes_slot fun _ _ hmember => .field op hmember
  | invoke kind =>
    obtain rfl := of_decide_eq_true hop
    refine takes_find fun slot found hmember => ?_
    cases found
    dsimp only
    split
    case isTrue hk =>
      subst hk
      refine (takes_skip 2).bind fun fill _ hfill => takes_pure ?_
      obtain ⟨count, zero, rfl⟩ := length_eq_two.mp hfill
      exact .invokeInterface count zero hmember
    case isFalse hk => exact takes_pure (.invoke hk hmember)
  | invokeDynamic =>
    obtain rfl := of_decide_eq_true hop
    refine takes_find fun slot _ hsite => ?_
    refine (takes_skip 2).bind fun fill _ hfill => takes_pure ?_
    obtain ⟨zero, zero', rfl⟩ := length_eq_two.mp hfill
    exact .invokeDynamic zero zero' hsite
  | typed op =>
    obtain rfl := of_decide_eq_true hop
    exact takes_slot fun _ _ hname => .typed op hname
  | newArray =>
    obtain rfl := of_decide_eq_true hop
    exact takes_byte .newArray
  | newMultiArray =>
    obtain rfl := of_decide_eq_true hop
    refine takes_find fun slot _ hname => ?_
    refine takes_u8.bind ?_
    rintro _ dims rfl
    exact takes_pure (.newMultiArray dims hname)
  | raise =>
    obtain rfl := of_decide_eq_true hop
    exact takes_pure .raise
  | wide =>
    obtain rfl := of_decide_eq_true hop
    exact takes_widened

/-- Whatever is read as an instruction spells it. -/
theorem takes_instruction : Takes (instruction pool bootstraps size) o (Spelled pool bootstraps o) := by
  intro rest i next h
  cases rest with
  | nil => cases h
  | cons opcode rest =>
    rw [instruction_cons] at h
    cases hs : shape? opcode with
    | none =>
      rw [hs] at h
      cases h
    | some =>
      rw [hs] at h
      obtain ⟨data, rfl, hnext, hspelled⟩ := takes_operands hs rest i next h
      exact ⟨opcode :: data, rfl, by rw [length_cons]; omega, hspelled⟩

/-- Bytes that spell an instruction are read as that instruction, in code that is long enough to hold them. -/
theorem Spelled.reads (h : Spelled pool bootstraps o data i) (hsize : data.length ≤ size) :
    Reads (instruction pool bootstraps size) o data i := by
  cases h with
  | plain h => exact reads_instruction .plain (shape?_of_isPlain h) (reads_pure _ _)
  | null => exact reads_instruction (.push .null) rfl (reads_pure _ _)
  | int h => exact reads_instruction _ (shape?_iconst h) (reads_pure _ _)
  | long h => exact reads_instruction _ (shape?_lconst h) (reads_pure _ _)
  | float h => exact reads_instruction _ (shape?_fconst h) (reads_pure _ _)
  | double h => exact reads_instruction _ (shape?_dconst h) (reads_pure _ _)
  | byte v =>
    have hr := (reads_u8 v.toUInt8 (o + 1)).map fun n => (.push (.int (Int32.ofInt n.toInt8.toInt)) : Decoded)
    exact reads_instruction .pushByte rfl hr
  | short v =>
    have hr := (reads_u16 v.toUInt16 (o + 1)).map fun n => (.push (.int (Int32.ofInt n.toInt16.toInt)) : Decoded)
    exact reads_instruction .pushShort rfl hr
  | constantNear h => exact reads_instruction .pushNear rfl ((reads_u8 _ _).find h _)
  | constant h => exact reads_instruction (.pushFar false) rfl ((reads_u16 _ _).find h _)
  | constantWide h => exact reads_instruction (.pushFar true) rfl ((reads_u16 _ _).find h _)
  | load kind slot => exact reads_instruction _ (shape?_load kind) ((reads_u8 slot _).map _)
  | loadFirst kind h => exact reads_instruction _ (shape?_loadFrom kind h) (reads_pure _ _)
  | loadWide kind slot => exact reads_wide _ (shape?_load kind) (reads_pure _ _)
  | store kind slot => exact reads_instruction _ (shape?_store kind) ((reads_u8 slot _).map _)
  | storeFirst kind h => exact reads_instruction _ (shape?_storeTo kind h) (reads_pure _ _)
  | storeWide kind slot => exact reads_wide _ (shape?_store kind) (reads_pure _ _)
  | increment slot delta =>
    have hr := (reads_u8 delta.toUInt8 (o + 2)).map
      fun d => (.increment slot.toUInt16 (Int16.ofInt d.toInt8.toInt) : Decoded)
    exact reads_instruction .increment rfl ((reads_u8 slot _).bind hr)
  | incrementWide slot delta =>
    have hr := (reads_u16 delta.toUInt16 (o + 4)).map fun d => (.increment slot d.toInt16 : Decoded)
    exact reads_wide .increment rfl hr
  | stack op => exact reads_instruction _ (shape?_stack op) (reads_pure _ _)
  | math h => exact reads_instruction _ (shape?_math h) (reads_pure _ _)
  | branch cond d => exact reads_instruction _ (shape?_branch cond) ((reads_displacement16 d _ _).map _)
  | jump d => exact reads_instruction (.jump false) rfl ((reads_displacement16 d _ _).map _)
  | jumpFar d => exact reads_instruction (.jump true) rfl ((reads_displacement32 d _ _).map _)
  | callSub d => exact reads_instruction (.callSub false) rfl ((reads_displacement16 d _ _).map _)
  | callSubFar d => exact reads_instruction (.callSub true) rfl ((reads_displacement32 d _ _).map _)
  | leaveSub slot => exact reads_instruction .leaveSub rfl ((reads_u8 slot _).map _)
  | leaveSubWide slot => exact reads_wide .leaveSub rfl (reads_pure _ _)
  | tableSwitch _ _ otherwise hfill htargets => exact reads_tableSpelling hfill htargets rfl hsize
  | lookupSwitch otherwise hfill hcount => exact reads_lookupSpelling hfill hcount rfl hsize
  | leave kind => exact reads_instruction _ (shape?_leave kind) (reads_pure _ _)
  | leaveVoid => exact reads_instruction (.leave none) rfl (reads_pure _ _)
  | raise => exact reads_instruction .raise rfl (reads_pure _ _)
  | field op h => exact reads_instruction _ (shape?_field op) ((reads_u16 _ _).find h _)
  | @invoke kind _ _ _ hk h =>
    refine reads_instruction _ (shape?_invoke kind) ((reads_u16 _ _).bind ((reads_lift h _).bind ?_))
    simp only [if_neg hk]
    exact reads_pure _ _
  | invokeInterface count zero h =>
    refine reads_instruction _ (shape?_invoke .interface) ((reads_u16 _ _).bind ((reads_lift h _).bind ?_))
    exact (reads_skip [count, zero] _).bind (reads_pure _ _)
  | invokeDynamic zero zero' h =>
    refine reads_instruction .invokeDynamic rfl ((reads_u16 _ _).bind ((reads_lift h _).bind ?_))
    exact (reads_skip [zero, zero'] _).bind (reads_pure _ _)
  | typed op h => exact reads_instruction _ (shape?_typed op) ((reads_u16 _ _).find h _)
  | newArray element => exact reads_instruction .newArray rfl ((reads_u8 element _).map _)
  | newMultiArray dims h =>
    exact reads_instruction .newMultiArray rfl
      ((reads_u16 _ _).bind ((reads_lift h _).bind ((reads_u8 dims _).map _)))

/-! ### All of them -/

/-- Tiles are read one after the other. -/
theorem Tiled.instructions_eq (h : Tiled pool bootstraps o code ds) (hsize : code.length ≤ size)
    (hsteps : code.length ≤ steps) :
    instructions pool bootstraps size steps done ⟨o, code⟩ = .ok (done.reverse ++ ds) := by
  induction h generalizing steps done with
  | done o => cases steps <;> simp [instructions]
  | @tile o data rest i ds h _ ih =>
    rw [length_append] at hsize hsteps
    have hread : instruction pool bootstraps size ⟨o, data ++ rest⟩ = _ := h.reads (by omega) rest
    obtain ⟨_, data, rfl⟩ := exists_cons_of_ne_nil h.ne_nil
    rw [length_cons] at hsteps
    obtain ⟨steps, rfl⟩ : ∃ n, steps = n + 1 := ⟨steps - 1, by omega⟩
    rw [cons_append] at hread
    rw [cons_append, instructions]
    simp only [isEmpty_cons, Bool.false_eq_true, if_false, hread]
    rw [ih (by omega) (by omega), reverse_cons, append_assoc, singleton_append]

/-- What was read to the end of the code tiles it. -/
theorem tiled_of_instructions {decoded : List (Nat × Decoded)} (hsteps : rest.length ≤ steps)
    (h : instructions pool bootstraps size steps done ⟨o, rest⟩ = .ok decoded) :
    ∃ ds, decoded = done.reverse ++ ds ∧ Tiled pool bootstraps o rest ds := by
  induction steps generalizing o rest done with
  | zero =>
    obtain rfl := length_eq_zero_iff.mp (Nat.le_zero.mp hsteps)
    cases h
    exact ⟨[], (append_nil _).symm, .done o⟩
  | succ steps ih =>
    unfold instructions at h
    split at h
    case isTrue hempty =>
      obtain rfl : rest = [] := by simpa using hempty
      cases h
      exact ⟨[], (append_nil _).symm, .done o⟩
    case isFalse =>
      split at h
      case h_2 => cases h
      rename_i i next hi
      obtain ⟨_, hrest, hoffset, hspelled⟩ := takes_instruction rest i next hi
      have hpos := length_pos_iff.mpr hspelled.ne_nil
      obtain ⟨_, _⟩ := next
      dsimp only at hrest hoffset
      subst hrest hoffset
      rw [length_append] at hsteps
      obtain ⟨ds, rfl, htiled⟩ := ih (by omega) h
      exact ⟨(o, i) :: ds, by simp, .tile hspelled htiled⟩

/-- The decoder accepts exactly the code that is tiled by instructions, and returns the tiles. -/
theorem instructions_eq_ok_iff :
    instructions pool bootstraps code.length code.length [] ⟨0, code⟩ = .ok ds ↔ Tiled pool bootstraps 0 code ds := by
  constructor
  · intro h
    obtain ⟨_, rfl, htiled⟩ := tiled_of_instructions (le_refl _) h
    exact htiled
  · intro h
    exact h.instructions_eq (le_refl _) (le_refl _)

/-- Code is tiled in one way at most. -/
theorem Tiled.unique {ds' : List (Nat × Decoded)} (h : Tiled pool bootstraps 0 code ds)
    (h' : Tiled pool bootstraps 0 code ds') : ds = ds' := by
  have heq := (instructions_eq_ok_iff.mpr h).symm.trans (instructions_eq_ok_iff.mpr h')
  exact Except.ok.inj heq

end Reading

end Decoding

end Untangle
