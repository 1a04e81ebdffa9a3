import Mathlib.Logic.Relation
import Untangle.Proofs.ClassUnit.Loops
import Untangle.Proofs.Code.Assembly
import Untangle.Proofs.Code.Disassembly
import Untangle.Proofs.Initialization.StraightRun
import Untangle.Proofs.Simplification.Calls
import Untangle.Proofs.Simplification.ExceptionFlow
import Untangle.Proofs.Simplification.JumpChain

/-!
# Every run keeps bodies well-formed

Each pass over method bodies and each pass over classes keeps every body well-formed, so they do in any
order and however often they run.
-/

namespace Untangle

open List Forwarder

variable {b : Body} {m : Method} {ms : List Method} {s s' : ClassUnit × Context}

/-! ### Passes over bodies -/

namespace Body.WellFormed

open Literals

theorem foldConstants (h : b.WellFormed) : b.foldConstants.2.WellFormed := h.sweep foldRule_mild

theorem decideBranches (h : b.WellFormed) : b.decideBranches.2.WellFormed := h.sweep branchRule_mild

theorem decideSwitches (h : b.WellFormed) : b.decideSwitches.2.WellFormed := h.sweep switchRule_mild

theorem removePops (h : b.WellFormed) : b.removePops.2.WellFormed := h.sweep popRule_mild

end Body.WellFormed

namespace MethodPass

/-- A pass over bodies gives a well-formed body again. Only restoring exception flow can fail, on a body
that stumbles or lacks a label. -/
theorem run_wellFormed {p : MethodPass} (hp : p ∈ all) (h : b.WellFormed) :
    (∃ changes b', p.run b = .ok (changes, b') ∧ b'.WellFormed) ∨
      p = exceptionFlow ∧ ∃ e, p.run b = .error e ∧ (b.Stumbles ∨ b.LacksLabel) := by
  simp only [all, flowSimplification, mem_append, mem_cons, not_mem_nil, or_false] at hp
  rcases hp with (rfl | rfl | rfl | rfl | rfl | rfl) | rfl
  · exact .inl ⟨_, _, rfl, h.foldConstants⟩
  · exact .inl ⟨_, _, rfl, h.decideBranches⟩
  · exact .inl ⟨_, _, rfl, h.decideSwitches⟩
  · exact .inl ⟨_, _, rfl, h.removePops⟩
  · exact .inl ⟨_, _, rfl, h.collapseJumpChains⟩
  · exact .inl ⟨_, _, rfl, h.removeDeadCode⟩
  · cases hr : exceptionFlow.run b with
    | ok result => exact .inl ⟨result.1, result.2, rfl, h.restoreExceptionFlow hr⟩
    | error e =>
      refine .inr ⟨rfl, e, rfl, ?_⟩
      exact (Body.restoreExceptionFlow_eq_error.mp hr).imp And.right And.right

end MethodPass

/-! ### Passes over classes -/

/-- The bodies of some methods are well-formed. -/
def WellFormedBodies (ms : List Method) : Prop := ∀ m ∈ ms, ∀ b, m.body = some b → b.WellFormed

namespace WellFormedBodies

theorem head (h : WellFormedBodies (m :: ms)) (hb : m.body = some b) :
    b.WellFormed := h m (mem_cons_self ..) b hb

theorem tail (h : WellFormedBodies (m :: ms)) : WellFormedBodies ms :=
  fun k hk => h k (mem_cons_of_mem _ hk)

theorem elementwise : Elementwise
    (fun _ m m' => (∀ b, m.body = some b → b.WellFormed) → ∀ b, m'.body = some b → b.WellFormed)
    (fun _ ms ms' => WellFormedBodies ms → WellFormedBodies ms') :=
  ⟨id, fun hm hms h => forall_mem_cons.mpr ⟨hm fun _ => h.head, hms h.tail⟩⟩

theorem edit {b' : Body} (hb : m.body = some b) (h : b.WellFormed → b'.WellFormed)
    (hm : ∀ b, m.body = some b → b.WellFormed) : ∀ b, some b' = some b → b.WellFormed := by
  rintro _ ⟨⟩
  exact h (hm b hb)

end WellFormedBodies

/-! #### Whole classes -/

/-- Every body of the class is well-formed. -/
def ClassUnit.WellFormed (u : ClassUnit) : Prop := WellFormedBodies u.methods

namespace ClassUnit.WellFormed

variable {u : ClassUnit} (h : u.WellFormed)

include h

theorem removeMethods (test : Method → Bool) : (u.removeMethods test).2.WellFormed := by
  unfold ClassUnit.removeMethods
  split
  · exact h
  · exact fun m hm => h m (mem_filter.mp hm).1

theorem removeFields (test : Field → Bool) : (u.removeFields test).2.WellFormed := by
  unfold ClassUnit.removeFields
  split
  · exact h
  · exact h

theorem xorHelpers : (XorHelpers.run u).2.WellFormed := by
  have hms := WellFormedBodies.elementwise.foldCalls (fun _ => id) (fun hb => WellFormedBodies.edit hb
    (·.sweep (XorHelpers.rule_mild u.name ((u.methods.filter XorHelpers.isHelper).map Method.name)))) u.methods h
  unfold XorHelpers.run
  simp only
  split
  · exact h
  · split
    · rename_i heq
      rw [heq] at hms
      exact hms
    · rename_i methods _ heq
      rw [heq] at hms
      have hu : { u with methods }.WellFormed := hms
      exact hu.removeMethods _

theorem callSites : (CallSites.run u).2.WellFormed := by
  have hms := WellFormedBodies.elementwise.resolveMethods (fun _ => id) (fun hb => WellFormedBodies.edit hb
    (·.resolveBody u.name (CallSites.linkers u))) u.methods h
  unfold CallSites.run
  simp only
  split
  · exact h
  · split
    · exact hms
    · have hu : WellFormed
          { u with methods := (CallSites.resolveMethods u.name (CallSites.linkers u) [] 0 [] u.methods).2.2 } := hms
      exact (hu.removeMethods _).removeFields _

theorem strings (c : Context) : (Strings.run u c).2.1.WellFormed := by
  have hms := WellFormedBodies.elementwise.decryptMethods (fun _ => id) (fun p hb _ => WellFormedBodies.edit hb
    (·.sweepWith (fun _ _ _ _ _ _ => Strings.rule_thinned (k := Strings.Known.of u)) p)) ⟨c, []⟩ u.methods h
  unfold Strings.run
  simp only
  split
  · exact h
  · split
    · exact hms
    · have hu : WellFormed
          { u with methods := (Strings.decryptMethods (Strings.Known.of u) ⟨c, []⟩ 0 [] u.methods).2.2 } := hms
      exact hu.removeMethods _

theorem constructorJunk : (ConstructorJunk.run u).2.WellFormed :=
  WellFormedBodies.elementwise.cleanMethods (fun _ => id) (fun hb => WellFormedBodies.edit hb
    fun hbody => ConstructorJunk.clean_wellFormed hbody _) u.methods h

theorem withInitializer (hb : b.WellFormed) :
    { u with methods := StaticJunk.withInitializer b u.methods }.WellFormed := by
  intro m hm b' hb'
  obtain ⟨j, hj⟩ := getElem?_of_mem hm
  rw [StaticJunk.withInitializer, getElem?_modify, Option.map_eq_map, Option.map_eq_some_iff] at hj
  obtain ⟨k, hk, rfl⟩ := hj
  split at hb'
  · cases hb'
    exact hb
  · exact h k (mem_of_getElem? hk) b' hb'

theorem staticJunk : (StaticJunk.run u).2.WellFormed := by
  unfold StaticJunk.run
  simp only
  split
  · exact h
  · rename_i b hb
    obtain ⟨m, hm, hmb⟩ := Option.bind_eq_some_iff.mp hb
    have hbody := h m (mem_of_find?_eq_some hm) b hmb
    have hstrip := hbody.strip (StaticJunk.find?_mild u.name u.readFields b.referencedSet.contains)
    have hu := h.withInitializer hstrip
    split
    · exact (hu.removeMethods _).removeFields _
    · exact hu.removeFields _

theorem junkMembers : (JunkMembers.run u).2.WellFormed := by
  exact (h.removeFields _).removeMethods _

theorem forwarders {u' : ClassUnit} {changes : Nat} (hr : Forwarder.run u = .ok (changes, u')) : u'.WellFormed := by
  unfold run at hr
  simp only [bind, Except.bind] at hr
  split at hr
  case h_1 => cases hr
  rename_i fs hfs
  cases hr
  have hcalls : ∀ f ∈ direct fs, f.Calls := by
    intro f hf
    obtain hf | ⟨m, -, hm⟩ := (collect_spec hfs).1 f (mem_filter.mp hf).1
    · cases hf
    · exact hm.calls
  have hms := WellFormedBodies.elementwise.redirectCalls (fun _ => id) (fun hb _ => WellFormedBodies.edit hb
    (·.sweep fun _ => rule_mild u.name hcalls)) u.methods h
  have hu : WellFormed
      { u with methods := (redirectCalls u.name (direct fs) 0 [] u.methods).2 } := hms
  exact (hu.removeMethods _).removeFields _

end ClassUnit.WellFormed

/-- A pass over classes gives well-formed bodies again. Only looking for forwarders can fail, at a
method with more slots of arguments than there are. -/
theorem UnitPass.run_wellFormed {p : UnitPass} (hp : p ∈ UnitPass.all) (h : u.WellFormed) (c : Context) :
    (∃ changes u' c', p.run u c = .ok (changes, u', c') ∧ u'.WellFormed) ∨
      p = proxyMembers ∧ p.run u c = .error .slotOverflow ∧ ∃ m ∈ u.methods, m.ForwardsPastLastSlot := by
  simp only [all, mem_cons, not_mem_nil, or_false] at hp
  rcases hp with rfl | rfl | rfl | rfl | rfl | rfl | rfl | rfl
  · exact .inl ⟨_, _, _, rfl, h.strings c⟩
  · exact .inl ⟨_, _, _, rfl, h.callSites⟩
  · exact .inl ⟨_, _, _, rfl, h.removeMethods _⟩
  · exact .inl ⟨_, _, _, rfl, h.xorHelpers⟩
  · exact .inl ⟨_, _, _, rfl, h.constructorJunk⟩
  · exact .inl ⟨_, _, _, rfl, h.staticJunk⟩
  · exact .inl ⟨_, _, _, rfl, h.junkMembers⟩
  · cases hr : Forwarder.run u with
    | ok result =>
      refine .inl ⟨result.1, result.2, c, ?_, h.forwarders hr⟩
      simp [proxyMembers, hr, bind, Except.bind, pure, Except.pure]
    | error e =>
      obtain ⟨rfl, hm⟩ := run_eq_error.mp hr
      refine .inr ⟨rfl, ?_, hm⟩
      simp [proxyMembers, hr]

/-! ### Runs -/

/-- One step of a run: a pass over the body of one method, or a pass over the class. -/
inductive Step : ClassUnit × Context → ClassUnit × Context → Prop
  | overBody {u : ClassUnit} {c : Context} {p : MethodPass} {before after : List Method} {m : Method} {b b' : Body}
      {changes : Nat} (hp : p ∈ MethodPass.all) (hm : u.methods = before ++ m :: after) (hb : m.body = some b)
      (hr : p.run b = .ok (changes, b')) :
      Step (u, c) ({ u with methods := before ++ { m with body := some b' } :: after }, c)
  | overClass {u u' : ClassUnit} {c c' : Context} {p : UnitPass} {changes : Nat} (hp : p ∈ UnitPass.all)
      (hr : p.run u c = .ok (changes, u', c')) : Step (u, c) (u', c')

theorem Step.wellFormed (hs : Step s s') (h : s.1.WellFormed) : s'.1.WellFormed := by
  cases hs with
  | overBody hp hm hb hr =>
    rename_i u c p before after m b b' changes
    have hwf : WellFormedBodies (before ++ m :: after) := hm ▸ h
    have hb' : b'.WellFormed := by
      rcases MethodPass.run_wellFormed hp (hwf m (by simp) b hb) with ⟨_, _, hok, hb'⟩ | ⟨-, _, herr, -⟩
      · rw [hr] at hok
        cases hok
        exact hb'
      · rw [hr] at herr
        cases herr
    intro k hk
    rcases mem_append.mp hk with hk | hk
    · exact hwf k (mem_append_left _ hk)
    · rcases mem_cons.mp hk with rfl | hk
      · rintro _ ⟨⟩
        exact hb'
      · exact hwf k (mem_append_right _ (mem_cons_of_mem _ hk))
  | overClass hp hr =>
    rename_i u _ c _ p changes
    rcases UnitPass.run_wellFormed hp h c with ⟨_, _, _, hok, hu'⟩ | ⟨-, herr, -⟩
    · rw [hr] at hok
      cases hok
      exact hu'
    · rw [hr] at herr
      cases herr

theorem wellFormed_of_steps (hs : Relation.ReflTransGen Step s s') (h : s.1.WellFormed) : s'.1.WellFormed := by
  induction hs with
  | refl => exact h
  | tail _ hstep ih => exact hstep.wellFormed ih

/-- Well-formedness through a whole run: code whose last instruction does not fall through is
disassembled into a well-formed body; a pass over a well-formed body or class gives well-formed bodies
again, unless the number of a slot or a label overflows on the way, and it is said when one does; so does every
sequence of passes; and assembling a well-formed body never fails for want of a label or an opcode. -/
theorem wellFormed_throughout (code : CodeAttribute) (pool : Pool) (bootstraps : List BootstrapEntry) (b : Body)
    (u : ClassUnit) (c : Context) :
    (∀ decoded, disassemble code pool bootstraps = .ok b →
      Decoding.instructions pool bootstraps code.code.length code.code.length [] ⟨0, code.code⟩ = .ok decoded →
      (∀ d, decoded.getLast? = some d → d.2.fallsThrough = false) → b.WellFormed) ∧
    (b.WellFormed →
      (∀ p ∈ MethodPass.all, (∃ changes b', p.run b = .ok (changes, b') ∧ b'.WellFormed) ↔
        ¬ (p = .exceptionFlow ∧ (b.Stumbles ∨ b.LacksLabel))) ∧
      (b.Stumbles → b.ReadsPastLastSlot) ∧
      (b.LacksLabel → 4294967295 < b.code.nextLabel + b.ranges.length) ∧
      ∀ e pool', assemble b pool = .error e pool' →
        (∀ l, e ≠ .unboundLabel l) ∧ ∀ text, e ≠ .unencodable text) ∧
    (u.WellFormed →
      (∀ p ∈ UnitPass.all, (∃ changes u' c', p.run u c = .ok (changes, u', c') ∧ u'.WellFormed) ↔
        ¬ (p = .proxyMembers ∧ ∃ m ∈ u.methods, m.ForwardsPastLastSlot)) ∧
      ∀ s, Relation.ReflTransGen Step (u, c) s → s.1.WellFormed) := by
  refine ⟨?_, fun hb => ⟨?_, hb.readsPastLastSlot_of_stumbles, Body.LacksLabel.room, ?_⟩, fun hu => ⟨?_, ?_⟩⟩
  · intro decoded hb hdecoded hlast
    exact Disassembly.wellFormed_of_disassemble hb hdecoded hlast
  · intro p hp
    refine ⟨?_, fun hno => ?_⟩
    · rintro ⟨changes, b', hok, -⟩ ⟨rfl, hfails⟩
      change b.restoreExceptionFlow = _ at hok
      rcases hfails with hs | hs
      · rw [Body.restoreExceptionFlow_eq_error.mpr (.inl ⟨rfl, hs⟩)] at hok
        cases hok
      · rw [Body.restoreExceptionFlow_eq_error.mpr (.inr ⟨rfl, hs⟩)] at hok
        cases hok
    · rcases MethodPass.run_wellFormed hp hb with hok | ⟨hpass, -, -, hfails⟩
      · exact hok
      · exact absurd ⟨hpass, hfails⟩ hno
  · intro e pool' he
    have hlimit := Assembly.failsOnly_assemble hb.toLinked hb.maths pool e pool' he
    constructor
    · rintro l rfl
      exact hlimit
    · rintro text rfl
      exact hlimit
  · intro p hp
    refine ⟨?_, fun hno => ?_⟩
    · rintro ⟨_, _, _, hok, -⟩ ⟨rfl, hm⟩
      simp [UnitPass.proxyMembers, run_eq_error.mpr ⟨rfl, hm⟩] at hok
    · rcases UnitPass.run_wellFormed hp hu c with hok | ⟨hpass, -, hm⟩
      · exact hok
      · exact absurd ⟨hpass, hm⟩ hno
  · intro s hs
    exact wellFormed_of_steps hs hu

/-- Jumps over an instruction. -/
def skippingCode : CodeAttribute where
  maxStack := 1
  maxLocals := 0
  code := [0x03, 0x99, 0x00, 0x04, 0x00, 0xb1]
  ranges := []
  attributes := []

/-- The body of code that jumps over an instruction. -/
def skippingBody : Body where
  maxStack := 1
  maxLocals := 0
  code := Listing.ofInstrs [.push (.int 0), .branch .eq 0, .plain 0, .label 0, .leave none]

/-- A class with one method, whose code jumps over an instruction. -/
def skippingClass : ClassUnit :=
  { (default : ClassUnit) with methods := [{ (default : Method) with body := some skippingBody }] }

/-- Calls through an interface with a text that is no descriptor. -/
def miscallingBody : Body where
  maxStack := 1
  maxLocals := 0
  code := Listing.ofInstrs [.push .null, .invoke .interface ⟨"A", "f", "bogus"⟩ true, .leave none]

theorem miscallingBody_wellFormed : miscallingBody.WellFormed :=
  Body.wellFormed_ofInstrs rfl (by decide) (by decide)

/-- Code that jumps is disassembled into a well-formed body; a branch in it is decided, in the body and
in its class, with well-formed results; and a call that cannot be written is reported as what it is. -/
theorem skippingCode_wellFormed_throughout :
    disassemble skippingCode .empty [] = .ok skippingBody ∧ skippingBody.WellFormed ∧
    (∃ changes b', MethodPass.deadBranch.run skippingBody = .ok (changes, b') ∧ b'.WellFormed) ∧
    (∃ changes u' c', UnitPass.xorHelpers.run skippingClass default = .ok (changes, u', c') ∧ u'.WellFormed) ∧
    (∃ s', Relation.ReflTransGen Step (skippingClass, default) s' ∧ s'.1.WellFormed) ∧
    ∃ e pool, assemble miscallingBody .empty = .error e pool ∧ ∀ l, e ≠ .unboundLabel l := by
  have hcode : disassemble skippingCode .empty [] = .ok skippingBody := by decide +kernel
  obtain ⟨hdisassembled, hbody, hclass⟩ :=
    wellFormed_throughout skippingCode .empty [] skippingBody skippingClass default
  have hwf : skippingBody.WellFormed := by
    refine hdisassembled [(0, .push (.int 0)), (1, .branch .eq 5), (4, .plain 0), (5, .leave none)] hcode
      (by decide +kernel) ?_
    rintro d ⟨⟩
    rfl
  have hmethods : skippingClass.WellFormed := by
    intro m hm b hb
    cases mem_singleton.mp hm
    cases hb
    exact hwf
  have hdecided : MethodPass.deadBranch ∈ MethodPass.all := by simp [MethodPass.all, MethodPass.flowSimplification]
  obtain ⟨changes, b', hrun, hb'⟩ := ((hbody hwf).1 MethodPass.deadBranch hdecided).mpr
    fun h => absurd (congrArg MethodPass.name h.1) (by decide)
  have hstep : Step (skippingClass, default)
      ({ skippingClass with methods := [] ++ { (default : Method) with body := some b' } :: [] }, default) :=
    .overBody (m := { (default : Method) with body := some skippingBody }) hdecided rfl rfl hrun
  refine ⟨hcode, hwf, ⟨changes, b', hrun, hb'⟩, ?_, ⟨_, .single hstep, (hclass hmethods).2 _ (.single hstep)⟩, ?_⟩
  · exact ((hclass hmethods).1 UnitPass.xorHelpers (by simp [UnitPass.all])).mpr
      fun h => absurd (congrArg UnitPass.name h.1) (by decide)
  · have hfails := (wellFormed_throughout skippingCode .empty [] miscallingBody skippingClass default).2.1
      miscallingBody_wellFormed
    exact ⟨_, _, rfl, (hfails.2.2.2 _ _ rfl).1⟩

/-- Throws an exception that is caught and stored away, and reads the last slot as the first of two. -/
def lastSlotBody : Body where
  maxStack := 2
  maxLocals := 65535
  code := Listing.ofInstrs
    [.label 0, .typed .new "E", .stack .dup, .invoke .special ⟨"E", "<init>", "()V"⟩ false, .raise, .label 1,
     .label 2, .store .ref 0, .load .long 65535, .stack .pop2, .leave none]
  ranges := [⟨0, 1, 2, some "E"⟩]

/-- Restoring exception flow gives no body at all for a well-formed body that reads the last slot as the
first of two. -/
theorem lastSlotBody_exceptionFlow : lastSlotBody.WellFormed ∧
    MethodPass.exceptionFlow.run lastSlotBody = .error .slotOverflow := by
  exact ⟨Body.wellFormed_ofInstrs rfl (by decide) (by decide), rfl⟩

/-! ### Sums of slot numbers -/

namespace ExceptionFlow

variable {slot : UInt16}

/-- Labels and lines read no slot. -/
theorem meetsLastSlot_filter_isReal {is : List Instr} :
    MeetsLastSlot slot (is.filter Instruction.isReal) ↔ MeetsLastSlot slot is := by
  induction is with
  | nil => rfl
  | cons i is ih =>
    rw [filter_cons]
    split
    · rw [meetsLastSlot_cons, meetsLastSlot_cons, ih]
    · rw [meetsLastSlot_cons]
      cases i <;> simp_all [ReadsSlot, Instruction.isReal]

/-- Which slots are read does not depend on targets. -/
theorem meetsLastSlot_mapTargets (f g : Int → Label) (ds : List (Nat × Decoding.Decoded)) :
    MeetsLastSlot slot (ds.map fun d => d.2.mapTargets f) ↔ MeetsLastSlot slot (ds.map fun d => d.2.mapTargets g) := by
  induction ds with
  | nil => rfl
  | cons d ds ih =>
    rw [map_cons, map_cons, meetsLastSlot_cons, meetsLastSlot_cons, ih]
    cases d.2 <;> simp [Instruction.mapTargets, ReadsSlot]

end ExceptionFlow

theorem MethodDescriptor.argSlots_take_le (params : List FieldType) (result : Option FieldType) (k : Nat) :
    argSlots ⟨params.take k, result⟩ ≤ argSlots ⟨params, result⟩ := by
  induction params generalizing k with
  | nil => simp
  | cons t params ih =>
    cases k with
    | zero => exact Nat.zero_le _
    | succ k => exact Nat.add_le_add_left (ih k) _

/-- In disassembled code, the slot after one that is read comes out as 65536 exactly if slot 65535 is read as a `long`
or `double` before the slot that is looked for. The slots of a method's first `k` arguments come out as more than
65535 exactly if there are so many and nothing else rules the method out as a forwarder. -/
theorem slot_sums {code : CodeAttribute} {pool : Pool} {bootstraps : List BootstrapEntry} {b : Body}
    (h : disassemble code pool bootstraps = .ok b) :
    ∃ decoded, Decoding.instructions pool bootstraps code.code.length code.code.length [] ⟨0, code.code⟩ = .ok decoded ∧
      (∀ slot e, ExceptionFlow.slotIsRead slot b.code.instrs = .error e ↔ e = .slotOverflow ∧
        ExceptionFlow.MeetsLastSlot slot (decoded.map fun d => d.2.mapTargets Int.toNat)) ∧
      ∀ owner m e, Forwarder.of? owner m = .error e ↔ e = .slotOverflow ∧
        ∃ (body : Body) (d : MethodDescriptor) (k : Nat),
        m.body = some body ∧ (MethodDescriptor.parse m.descriptor).toOption = some d ∧
        (m.access.isPrivate && m.name.toList.head? != some '<' && body.ranges.isEmpty) = true ∧
        65535 < (if m.isStatic then 0 else 1) + MethodDescriptor.argSlots ⟨d.params.take k, d.result⟩ := by
  obtain ⟨decoded, ranges, remarks, hdecoded, hf, rfl⟩ := Disassembly.fits_of_disassemble h
  refine ⟨decoded, hdecoded, fun slot e => ?_, fun owner m e => ?_⟩
  · have hreals := Disassembly.reals_body code ranges remarks hf.sane
    rw [map_instr_filter_isReal] at hreals
    rw [ExceptionFlow.slotIsRead_eq_error, ← ExceptionFlow.meetsLastSlot_filter_isReal]
    change _ ∧ ExceptionFlow.MeetsLastSlot slot
      (((Disassembly.body code decoded ranges remarks).nodes.map Node.instr).filter Instruction.isReal) ↔ _
    rw [hreals, ExceptionFlow.meetsLastSlot_mapTargets]
  · rw [of?_eq_error]
    refine and_congr_right fun _ => ⟨?_, ?_⟩
    · rintro ⟨body, d, hbody, hd, hmay, hslots⟩
      exact ⟨body, d, d.params.length, hbody, hd, hmay, by rwa [take_length]⟩
    · rintro ⟨body, d, k, hbody, hd, hmay, hslots⟩
      have hle := MethodDescriptor.argSlots_take_le d.params d.result k
      exact ⟨body, d, hbody, hd, hmay, lt_of_lt_of_le hslots (Nat.add_le_add_left hle _)⟩

/-- Stores away what it throws, and reads the last slot as the first of two. -/
def lastSlotCode : CodeAttribute where
  maxStack := 2
  maxLocals := 65535
  code := [0x01, 0xbf, 0x4b, 0xc4, 0x16, 0xff, 0xff, 0x58, 0xb1]
  ranges := [⟨0, 2, 2, 0⟩]
  attributes := []

/-- The body of code that reads the last slot as the first of two. -/
def lastSlotRead : Body where
  maxStack := 2
  maxLocals := 65535
  code := Listing.ofInstrs [.label 0, .push .null, .raise, .label 1, .store .ref 0, .load .long 65535, .stack .pop2,
    .leave none]
  ranges := [⟨0, 1, 1, none⟩]

theorem disassemble_lastSlotCode : disassemble lastSlotCode .empty [] = .ok lastSlotRead := by decide +kernel

theorem lastSlotCode_slot_sums : disassemble lastSlotCode .empty [] = .ok lastSlotRead ∧
    ∃ decoded, Decoding.instructions .empty [] 9 9 [] ⟨0, lastSlotCode.code⟩ = .ok decoded ∧
      ExceptionFlow.MeetsLastSlot 0 (decoded.map fun d => d.2.mapTargets Int.toNat) := by
  obtain ⟨decoded, hdecoded, hread, -⟩ := slot_sums disassemble_lastSlotCode
  exact ⟨disassemble_lastSlotCode, decoded, hdecoded, ((hread 0 .slotOverflow).mp rfl).2⟩

/-- Code that can be loaded makes looking for reads of slot 0 overflow, and restoring exception flow with it. -/
theorem lastSlotCode_overflows : disassemble lastSlotCode .empty [] = .ok lastSlotRead ∧
    ExceptionFlow.slotIsRead 0 lastSlotRead.code.instrs = .error .slotOverflow ∧
    MethodPass.exceptionFlow.run lastSlotRead = .error .slotOverflow :=
  ⟨disassemble_lastSlotCode, rfl, rfl⟩

end Untangle
