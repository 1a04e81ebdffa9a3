import Mathlib.Data.List.Infix
import Untangle.Proofs.Code.DeadCode
import Untangle.Proofs.Code.Succession

/-!
# Heights of the operand stack

What every instruction takes off the operand stack and puts there, in slots, and when the instructions
of a body can be given heights that fit: none at the entry, one slot for the exception at a handler, and
the same height on all ways to an instruction. Taking out dead code keeps such heights.
-/

namespace Untangle

open List

variable {b : Body} {ns : List Node} {x m : Node} {height : Nat → Nat} {stays : Node → Bool}

/-- Slots that are taken off the operand stack, and slots that are put there. -/
structure StackEffect where
  pops : Nat
  pushes : Nat
deriving DecidableEq, Repr

/-- The height that an effect leaves. -/
def StackEffect.apply (e : StackEffect) (height : Nat) : Nat := height - e.pops + e.pushes

/-! ### Effects -/

/-- Conversions between `int`, `long`, `float` and `double`, in the order of their opcodes. -/
def Opcode.conversions : List StackEffect :=
  [⟨1, 2⟩, ⟨1, 1⟩, ⟨1, 2⟩, ⟨2, 1⟩, ⟨2, 1⟩, ⟨2, 2⟩, ⟨1, 1⟩, ⟨1, 2⟩, ⟨1, 2⟩, ⟨2, 1⟩, ⟨2, 2⟩, ⟨2, 1⟩]

/-- What an instruction that is kept by number does to the stack. -/
def Opcode.effect? (opcode : UInt8) : Option StackEffect :=
  let n := opcode.toNat
  if n = 0x00 then some ⟨0, 0⟩
  -- loads from and stores into arrays, those of `long` and `double` with two slots for the value
  else if 0x2e ≤ n ∧ n ≤ 0x35 then some ⟨2, if n = 0x2f ∨ n = 0x31 then 2 else 1⟩
  else if 0x4f ≤ n ∧ n ≤ 0x56 then some ⟨if n = 0x50 ∨ n = 0x52 then 4 else 3, 0⟩
  else if 0x85 ≤ n ∧ n ≤ 0x90 then conversions[n - 0x85]?
  -- narrowing to `byte`, `char` and `short`, and comparisons
  else if 0x91 ≤ n ∧ n ≤ 0x93 then some ⟨1, 1⟩
  else if n = 0x95 ∨ n = 0x96 then some ⟨2, 1⟩
  else if n = 0x94 ∨ n = 0x97 ∨ n = 0x98 then some ⟨4, 1⟩
  -- the length of an array, and monitors
  else if n = 0xbe then some ⟨1, 1⟩
  else if n = 0xc2 ∨ n = 0xc3 then some ⟨1, 0⟩
  else none

def StackOp.effect : StackOp → StackEffect
  | .pop => ⟨1, 0⟩
  | .pop2 => ⟨2, 0⟩
  | .dup => ⟨1, 2⟩
  | .dupX1 => ⟨2, 3⟩
  | .dupX2 => ⟨3, 4⟩
  | .dup2 => ⟨2, 4⟩
  | .dup2X1 => ⟨3, 5⟩
  | .dup2X2 => ⟨4, 6⟩
  | .swap => ⟨2, 2⟩

def FieldOp.effect (op : FieldOp) (type : FieldType) : StackEffect :=
  match op with
  | .getStatic => ⟨0, type.slots⟩
  | .putStatic => ⟨type.slots, 0⟩
  | .getField => ⟨1, type.slots⟩
  | .putField => ⟨1 + type.slots, 0⟩

def TypeOp.effect : TypeOp → StackEffect
  | .new => ⟨0, 1⟩
  | .newArray | .checkCast | .instanceOf => ⟨1, 1⟩

/-- Operands of the kind's size, of which a shift has its distance as an `int`. -/
def MathOp.effect (op : MathOp) (kind : NumKind) : StackEffect :=
  let slots := kind.valueKind.slots
  if op.isUnary then ⟨slots, slots⟩ else if op.isShift then ⟨slots + 1, slots⟩ else ⟨slots + slots, slots⟩

/-- A call takes its arguments, after a receiver if it has one, and leaves its result. -/
def MethodDescriptor.effect (d : MethodDescriptor) (receiver : Nat) : StackEffect :=
  ⟨receiver + d.argSlots, (d.result.map FieldType.slots).getD 0⟩

namespace Instruction

variable {τ σ : Type}

/-- What an instruction does to the stack, on the ways that it jumps; `none` if its descriptor or opcode
is not one. -/
def effect? : Instruction τ → Option StackEffect
  | label _ | line _ | increment .. | jump _ | leaveSub _ => some ⟨0, 0⟩
  | push value => some ⟨0, value.slots⟩
  | load kind _ => some ⟨0, kind.slots⟩
  | store kind _ => some ⟨kind.slots, 0⟩
  | field op member => (FieldType.parse member.descriptor).toOption.map op.effect
  | invoke kind member _ =>
    (MethodDescriptor.parse member.descriptor).toOption.map (·.effect (if kind = .static then 0 else 1))
  | invokeDynamic site => (MethodDescriptor.parse site.descriptor).toOption.map (·.effect 0)
  | typed op _ => some op.effect
  | newArray _ => some ⟨1, 1⟩
  | newMultiArray _ dims => some ⟨dims.toNat, 1⟩
  | branch cond _ => some ⟨cond.operandCount, 0⟩
  | tableSwitch .. | lookupSwitch .. | raise => some ⟨1, 0⟩
  | stack op => some op.effect
  | math kind op => some (op.effect kind)
  | leave kind => some ⟨(kind.map ValueKind.slots).getD 0, 0⟩
  | callSub _ => some ⟨0, 1⟩
  | plain opcode => Opcode.effect? opcode

/-- The height where an instruction jumps to. -/
def heightAfter (i : Instruction τ) (height : Nat) : Nat := (i.effect?.map (·.apply height)).getD height

/-- The height behind an instruction. A subroutine has taken its return address off when it comes back. -/
def heightBehind (i : Instruction τ) (height : Nat) : Nat :=
  match i with
  | callSub _ => height
  | i => i.heightAfter height

@[simp] theorem effect?_mapTargets (f : τ → σ) (i : Instruction τ) : (i.mapTargets f).effect? = i.effect? := by
  cases i <;> rfl

@[simp] theorem heightAfter_mapTargets (f : τ → σ) (i : Instruction τ) (height : Nat) :
    (i.mapTargets f).heightAfter height = i.heightAfter height := by
  simp [heightAfter]

@[simp] theorem heightBehind_mapTargets (f : τ → σ) (i : Instruction τ) (height : Nat) :
    (i.mapTargets f).heightBehind height = i.heightBehind height := by
  cases i <;> rfl

end Instruction

/-! ### Bodies with heights -/

namespace Body

/-- Heights, by number of the node, that fit the instructions that control can come to. -/
structure Balances (b : Body) (height : Nat → Nat) : Prop where
  entry : ∀ n, b.nodes.find? Node.isReal = some n → height n.id = 0
  /-- An instruction finds what it takes off. -/
  runs : ∀ n, b.Reaches n → ∃ e, n.instr.effect? = some e ∧ e.pops ≤ height n.id
  falls : ∀ n m, b.Reaches n → n.instr.fallsThrough = true → FirstAfter b.nodes n m →
    height m.id = n.instr.heightBehind (height n.id)
  jumps : ∀ n m, ∀ t ∈ n.instr.targets, b.Reaches n → b.code.realAt? t = some m →
    height m.id = n.instr.heightAfter (height n.id)
  handlers : ∀ r ∈ b.ranges, ∀ m, b.code.realAt? r.handler = some m → b.Reaches m → height m.id = 1

/-- The operand stack has one height at every instruction that control can come to. -/
def StackConsistent (b : Body) : Prop := ∃ height, b.Balances height

/-- Heights fit an instruction with these nodes behind it. -/
def fitsAt (b : Body) (height : Nat → Nat) (n : Node) (rest : List Node) : Bool :=
  n.instr.effect?.any (fun e => e.pops ≤ height n.id) &&
    (!n.instr.fallsThrough ||
      (rest.find? Node.isReal).all fun m => height m.id == n.instr.heightBehind (height n.id)) &&
    n.instr.targets.all fun t => (b.code.realAt? t).all fun m => height m.id == n.instr.heightAfter (height n.id)

/-- Heights fit all instructions of a body, also those that control cannot come to. -/
def fits (b : Body) (height : Nat → Nat) : Bool :=
  ((b.nodes.find? Node.isReal).all fun n => height n.id == 0) &&
    (b.nodes.tails.all fun
      | [] => true
      | n :: rest => !n.isReal || b.fitsAt height n rest) &&
    b.ranges.all fun r => (b.code.realAt? r.handler).all fun m => height m.id == 1

theorem WellFormed.balances_of_fits (h : b.WellFormed) (hf : b.fits height = true) : b.Balances height := by
  simp only [fits, Bool.and_eq_true, all_eq_true, Option.all_eq_true, beq_iff_eq] at hf
  obtain ⟨⟨hentry, hall⟩, hhandlers⟩ := hf
  have hat : ∀ pre n post, b.nodes = pre ++ n :: post → n.isReal = true → b.fitsAt height n post = true := by
    intro pre n post hns hr
    have hfits := hall (n :: post) ((mem_tails _ _).mpr ⟨pre, hns.symm⟩)
    simpa [hr] using hfits
  simp only [fitsAt, Bool.and_eq_true, Option.any_eq_true, decide_eq_true_eq, Bool.or_eq_true, Bool.not_eq_true',
    Option.all_eq_true, beq_iff_eq, all_eq_true] at hat
  refine ⟨hentry, ?_, ?_, ?_, fun r hr m hm _ => hhandlers r hr m hm⟩
  · intro n hn
    obtain ⟨pre, post, hns⟩ := append_of_mem (h.mem_of_reaches hn)
    obtain ⟨e, he, hpops⟩ := (hat pre n post hns hn.isReal).1.1
    exact ⟨e, he, hpops⟩
  · rintro n m hn hfall ⟨pre, post, hns, hm⟩
    rcases (hat pre n post hns hn.isReal).1.2 with hno | hbehind
    · simp [hno] at hfall
    · exact hbehind m hm
  · intro n m t ht hn hm
    obtain ⟨pre, post, hns⟩ := append_of_mem (h.mem_of_reaches hn)
    exact (hat pre n post hns hn.isReal).2 t ht m hm

end Body

/-! ### Without dead code -/

namespace Body

/-- A body without its dead code: the instructions that stay are those that can be reached, and so are
some in every range that stays. -/
structure Pruned (b b' : Body) : Prop where
  nodes : ∃ stays : Node → Bool, b'.nodes = b.nodes.filter stays ∧
    ∀ n ∈ b.nodes, n.isReal = true → (stays n = true ↔ b.Reaches n)
  ranges : ∀ r ∈ b'.ranges, r ∈ b.ranges ∧ ∃ n ∈ b.realBetween r.start r.stop, b.Reaches n

/-- The first instruction behind a node is still that one if both stay. -/
theorem firstAfter_filter (hm : FirstAfter ns x m) (hx : stays x = true) (hstays : stays m = true) :
    FirstAfter (ns.filter stays) x m := by
  obtain ⟨pre, post, rfl, hfind⟩ := hm
  refine ⟨pre.filter stays, post.filter stays, ?_, find?_filter hfind hstays⟩
  rw [filter_append, filter_cons_of_pos hx]

theorem exists_firstAfter_of_filter (hm : FirstAfter (ns.filter stays) x m) : ∃ k, FirstAfter ns x k := by
  obtain ⟨_, _, he, hfind⟩ := hm
  obtain ⟨pre, _, rfl, -, hrest⟩ := filter_eq_append_iff.mp he
  obtain ⟨gap, post, rfl, -, -, hpost⟩ := filter_eq_cons_iff.mp hrest
  have hmem := mem_of_find?_eq_some hfind
  rw [← hpost] at hmem
  obtain ⟨k, hk⟩ := Option.isSome_iff_exists.mp
    (find?_isSome.mpr ⟨m, (mem_filter.mp hmem).1, find?_some hfind⟩)
  exact ⟨k, pre ++ gap, post, by simp, hk⟩

/-- Taking out labels leaves all instructions. -/
theorem WellFormed.nodes_pruneLabels (h : b.WellFormed) : ∃ stays : Node → Bool,
    b.pruneLabels.2.nodes = b.nodes.filter stays ∧ ∀ n, n.isReal = true → stays n = true := by
  refine ⟨fun n => n.instr.label?.all b.referencedSet.contains,
    Listing.nodes_of_strands (Listing.keep_strands h.intact _), fun n hn => ?_⟩
  simp [Instruction.label?_of_isReal hn]

theorem WellFormed.pruned_removeDeadCode (h : b.WellFormed) : b.Pruned b.removeDeadCode.2 := by
  obtain ⟨kept, hs, -, hreal⟩ := h.nodes_withoutDead
  have hdead := h.withoutDead
  have hnodes : b.withoutDead.nodes = b.nodes.filter kept := Listing.nodes_of_strands hs
  obtain ⟨dirty, he⟩ := b.removeDeadCode_eq
  have hranges := hdead.filterRanges (fun r => !(b.withoutDead.realBetween r.start r.stop).isEmpty) dirty
  rw [he]
  constructor
  · obtain ⟨stays, hstays, hkeeps⟩ := hranges.nodes_pruneLabels
    refine ⟨fun n => stays n && kept n, ?_, fun n hn hr => ?_⟩
    · rw [← filter_filter, ← hnodes]
      exact hstays
    · simpa [hkeeps n hr] using hreal n hn hr
  · intro r hr
    obtain ⟨hr, hne⟩ := mem_filter.mp hr
    refine ⟨hr, ?_⟩
    obtain ⟨n, hn⟩ : ∃ n, n ∈ b.withoutDead.realBetween r.start r.stop := by
      refine exists_mem_of_ne_nil _ fun hnil => ?_
      simp [hnil] at hne
    obtain ⟨hnr, a, c, ha, hc, hsub⟩ := hdead.mem_realBetween.mp hn
    rw [hnodes] at hsub
    have hmem := mem_filter.mp (hsub.subset (show n ∈ [a, n, c] by simp))
    exact ⟨n, h.mem_realBetween.mpr ⟨hnr, a, c, ha, hc, hsub.trans filter_sublist⟩,
      (hreal n hmem.1 hnr).mp hmem.2⟩

namespace Pruned

variable {b b' : Body} (hp : b.Pruned b') (h' : b'.WellFormed)

include hp h'

theorem reaches {n : Node} (hn : b'.Reaches n) : b.Reaches n := by
  obtain ⟨_, hns, hstays⟩ := hp.nodes
  have hmem := h'.mem_of_reaches hn
  rw [hns, mem_filter] at hmem
  exact (hstays n hmem.1 hn.isReal).mp hmem.2

/-- What comes behind a node that stays is what came behind it, if that can be reached. -/
theorem firstAfter (hreach : ∀ k, FirstAfter b.nodes x k → b.Reaches k) (hm : FirstAfter b'.nodes x m) :
    FirstAfter b.nodes x m := by
  obtain ⟨stays, hns, hstays⟩ := hp.nodes
  have hx : stays x = true := (mem_filter.mp (hns ▸ hm.mem)).2
  obtain ⟨k, hk⟩ := exists_firstAfter_of_filter (hns ▸ hm)
  have hk' := firstAfter_filter hk hx ((hstays k hk.mem_right hk.isReal).mpr (hreach k hk))
  rw [← hns] at hk'
  rwa [h'.firstAfter_unique hm hk']

variable (h : b.WellFormed)

include h

theorem realAt? {t : Label} (hreach : ∀ k, b.code.realAt? t = some k → b.Reaches k) (hm : b'.code.realAt? t = some m) :
    b.code.realAt? t = some m := by
  obtain ⟨a, hla, ha⟩ := h'.realAt?_eq_some.mp hm
  refine h.realAt?_eq_some.mpr ⟨a, hla, hp.firstAfter h' (fun k hk => ?_) ha⟩
  exact hreach k (h.realAt?_eq_some.mpr ⟨a, hla, hk⟩)

/-- Heights that fit a body fit it without its dead code. -/
theorem balances (hb : b.Balances height) : b'.Balances height where
  entry n hn := by
    obtain ⟨_, hns, hstays⟩ := hp.nodes
    have hmem : n ∈ b.nodes := by
      have := mem_of_find?_eq_some hn
      rw [hns] at this
      exact (mem_filter.mp this).1
    obtain ⟨m, hm⟩ := Option.isSome_iff_exists.mp (find?_isSome.mpr ⟨n, hmem, find?_some hn⟩)
    have hm' := find?_filter hm ((hstays m (mem_of_find?_eq_some hm) (find?_some hm)).mpr (.entry hm))
    rw [← hns, hn] at hm'
    cases hm'
    exact hb.entry n hm
  runs n hn := hb.runs n (hp.reaches h' hn)
  falls n m hn hf hm := by
    have hreach := hp.reaches h' hn
    refine hb.falls n m hreach hf (hp.firstAfter h' (fun k hk => ?_) hm)
    exact .step hreach (next_iff.mpr (.inl ⟨hf, hk⟩))
  jumps n m t ht hn hm := by
    have hreach := hp.reaches h' hn
    exact hb.jumps n m t ht hreach (hp.realAt? h' h (fun k hk => .step hreach (.jump ht hk)) hm)
  handlers r hr m hm hn := by
    obtain ⟨hr, q, hq, hreach⟩ := hp.ranges r hr
    refine hb.handlers r hr m (hp.realAt? h' h (fun k hk => ?_) hm) (hp.reaches h' hn)
    exact .step hreach (.thrown hr hq hk)

end Pruned

end Body

end Untangle
