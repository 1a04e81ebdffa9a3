import Untangle.Proofs.ClassUnit.References

/-!
# Members that are taken out

A pass that tidies a class up takes out members that nothing names. It looks for references at some
point of its run, and takes members out or changes code after that. What is taken out later cannot add
references, so it is enough that a pass looks after its last change to the code: then the class that it
leaves does not name what is gone.
-/

namespace Untangle

open List ClassUnit

variable {α : Type} {k changes : Nat} {ms : List Method} {test : Method → Bool}

theorem RewrittenAll.signatures {ms' : List Method} (h : RewrittenAll k ms ms') :
    ms'.map Method.signature = ms.map Method.signature := by
  induction h with
  | nil => rfl
  | cons h _ ih =>
    rw [map_cons, ih]
    cases h <;> rfl

namespace ClassUnit

variable {u v w : ClassUnit} {kind : MemberKind} {s : Signature}

/-! ### Taking out by a test -/

section Test

variable (u : ClassUnit) (ofMethod : Method → Bool) (ofField : Field → Bool)

@[simp] theorem methods_removeMethods :
    (u.removeMethods ofMethod).2.methods = u.methods.filter fun m => !ofMethod m := by
  unfold removeMethods
  split
  · rename_i hnone
    rw [countP_eq_zero] at hnone
    exact (filter_eq_self.mpr fun m hm => by simpa using hnone m hm).symm
  · rfl

@[simp] theorem fields_removeMethods : (u.removeMethods ofMethod).2.fields = u.fields := by
  unfold removeMethods
  split <;> rfl

@[simp] theorem name_removeMethods : (u.removeMethods ofMethod).2.name = u.name := by
  unfold removeMethods
  split <;> rfl

@[simp] theorem fields_removeFields : (u.removeFields ofField).2.fields = u.fields.filter fun f => !ofField f := by
  unfold removeFields
  split
  · rename_i hnone
    rw [countP_eq_zero] at hnone
    exact (filter_eq_self.mpr fun f hf => by simpa using hnone f hf).symm
  · rfl

@[simp] theorem methods_removeFields : (u.removeFields ofField).2.methods = u.methods := by
  unfold removeFields
  split <;> rfl

@[simp] theorem name_removeFields : (u.removeFields ofField).2.name = u.name := by
  unfold removeFields
  split <;> rfl

theorem countP_add_length_filter (test : α → Bool) (as : List α) :
    as.countP test + (as.filter fun a => !test a).length = as.length := by
  rw [← countP_eq_length_filter, length_eq_countP_add_countP test]
  simp

/-- The methods counted and those that are left are all methods. -/
theorem length_removeMethods :
    (u.removeMethods ofMethod).1 + (u.removeMethods ofMethod).2.methods.length = u.methods.length := by
  unfold removeMethods
  split
  · exact zero_add _
  · exact countP_add_length_filter ofMethod u.methods

/-- The fields counted and those that are left are all fields. -/
theorem length_removeFields :
    (u.removeFields ofField).1 + (u.removeFields ofField).2.fields.length = u.fields.length := by
  unfold removeFields
  split
  · exact zero_add _
  · exact countP_add_length_filter ofField u.fields

/-- What was counted before, the members taken out and those that are left. -/
theorem length_removals (changes : Nat) :
    changes + (u.removeMethods ofMethod).1 + ((u.removeMethods ofMethod).2.removeFields ofField).1 +
        ((u.removeMethods ofMethod).2.removeFields ofField).2.methods.length +
        ((u.removeMethods ofMethod).2.removeFields ofField).2.fields.length =
      changes + u.methods.length + u.fields.length := by
  have hmethods := u.length_removeMethods ofMethod
  have hfields := (u.removeMethods ofMethod).2.length_removeFields ofField
  rw [fields_removeMethods] at hfields
  rw [methods_removeFields]
  omega

end Test

/-- Some member with this signature is gone. -/
def Removes (u u' : ClassUnit) (kind : MemberKind) (s : Signature) : Prop :=
  (u'.members kind).count s < (u.members kind).count s

instance (u u' : ClassUnit) (kind : MemberKind) (s : Signature) : Decidable (u.Removes u' kind s) :=
  inferInstanceAs (Decidable (_ < _))

theorem not_removes_of_members (h : v.members kind = u.members kind) : ¬ u.Removes v kind s := by
  rw [Removes, h]
  exact lt_irrefl _

theorem not_removes_withMethods (h : RewrittenAll k u.methods ms) : ¬ u.Removes { u with methods := ms } kind s := by
  apply not_removes_of_members
  cases kind with
  | field => rfl
  | method => exact h.signatures

/-- No method with this signature is left. -/
def Loses (u u' : ClassUnit) (s : Signature) : Prop := s ∈ u.members .method ∧ s ∉ u'.members .method

instance (u u' : ClassUnit) (s : Signature) : Decidable (u.Loses u' s) :=
  inferInstanceAs (Decidable (s ∈ u.members .method ∧ s ∉ u'.members .method))

/-- If an entry with some value is missing from a filtered list, the test told it apart. -/
theorem exists_of_count_filter_lt {view : α → Signature} {test : α → Bool} {as : List α}
    (h : ((as.filter fun a => !test a).map view).count s < (as.map view).count s) :
    ∃ a ∈ as, test a = true ∧ view a = s := by
  by_contra! hnone
  refine ne_of_lt h ?_
  simp only [count_eq_countP, countP_map, countP_filter]
  refine countP_congr fun a ha => ?_
  cases htest : test a with
  | false => simp
  | true => simp [hnone a ha htest]

/-- What is gone when methods were taken out was gone before, or the test told it apart. -/
theorem Removes.of_removeMethods (h : u.Removes (v.removeMethods test).2 kind s) :
    u.Removes v kind s ∨ kind = .method ∧ ∃ m ∈ v.methods, test m = true ∧ m.signature = s := by
  cases kind with
  | field =>
    rw [Removes, members, fields_removeMethods] at h
    exact .inl h
  | method =>
    rw [Removes, members, methods_removeMethods] at h
    by_cases hv : u.Removes v .method s
    · exact .inl hv
    · exact .inr ⟨rfl, exists_of_count_filter_lt (lt_of_lt_of_le h (not_lt.mp hv))⟩

/-- What is gone when fields were taken out was gone before, or the test told it apart. -/
theorem Removes.of_removeFields {test : Field → Bool} (h : u.Removes (v.removeFields test).2 kind s) :
    u.Removes v kind s ∨ kind = .field ∧ ∃ f ∈ v.fields, test f = true ∧ f.signature = s := by
  cases kind with
  | field =>
    rw [Removes, members, fields_removeFields] at h
    by_cases hv : u.Removes v .field s
    · exact .inl hv
    · exact .inr ⟨rfl, exists_of_count_filter_lt (lt_of_lt_of_le h (not_lt.mp hv))⟩
  | method =>
    rw [Removes, members, methods_removeFields] at h
    exact .inl h

/-! ### References -/

/-- A class with fewer methods names less. -/
theorem Names.mono {way : Naming} (hname : v.name = u.name) (hmethods : v.methods ⊆ u.methods)
    (h : v.Names way kind s) : u.Names way kind s := by
  obtain ⟨m, hm, hnames⟩ := h
  exact ⟨m, hmethods hm, hname ▸ hnames⟩

theorem referenced_mono (hname : v.name = u.name) (hmethods : v.methods ⊆ u.methods) :
    v.referenced kind ⊆ u.referenced kind := by
  intro s hs
  obtain ⟨way, hnames⟩ := mem_referenced.mp hs
  exact mem_referenced.mpr ⟨way, hnames.mono hname hmethods⟩

theorem referenced_removeMethods : (u.removeMethods test).2.referenced kind ⊆ u.referenced kind :=
  referenced_mono (by simp) (by simp)

theorem referenced_removeFields {test : Field → Bool} : (u.removeFields test).2.referenced kind ⊆ u.referenced kind :=
  referenced_mono (by simp) (by simp)

/-! ### Passes -/

theorem not_mem_of_test {test : Bool} {found : List Signature} (h : (test && !found.contains s) = true) :
    s ∉ found := by
  simp only [Bool.and_eq_true, Bool.not_eq_true', contains_eq_mem, decide_eq_false_iff_not] at h
  exact h.2

theorem removes_junkMembers (h : u.Removes (JunkMembers.run u).2 kind s) :
    s ∉ (JunkMembers.run u).2.referenced kind := by
  refine fun hs => absurd (referenced_removeFields (referenced_removeMethods hs)) ?_
  rcases h.of_removeMethods with h | ⟨rfl, m, -, htest, rfl⟩
  · rcases h.of_removeFields with h | ⟨rfl, f, -, htest, rfl⟩
    · exact absurd h (not_removes_of_members rfl)
    · exact not_mem_of_test htest
  · exact not_mem_of_test htest

theorem removes_removeHandleMakers (h : u.Removes (CallSites.removeHandleMakers u).2 kind s) :
    s ∉ (CallSites.removeHandleMakers u).2.referenced kind := by
  refine fun hs => absurd (referenced_removeMethods hs) ?_
  rcases h.of_removeMethods with h | ⟨rfl, m, -, htest, rfl⟩
  · exact absurd h (not_removes_of_members rfl)
  · exact not_mem_of_test htest

theorem removes_xorHelpers (h : u.Removes (XorHelpers.run u).2 kind s) : s ∉ (XorHelpers.run u).2.referenced kind := by
  have hms := RewrittenAll.foldCalls u.name ((u.methods.filter XorHelpers.isHelper).map Method.name) u.methods
  unfold XorHelpers.run at h ⊢
  dsimp only at h ⊢
  split at h
  · exact absurd h (not_removes_of_members rfl)
  · rename_i hhelpers
    rw [if_neg hhelpers]
    split at h <;> rename_i heq <;> rw [heq] at hms
    · exact absurd h (not_removes_withMethods hms)
    · -- the search is made on the code in which the calls are replaced
      rcases h.of_removeMethods with h | ⟨rfl, m, -, htest, rfl⟩
      · exact absurd h (not_removes_withMethods hms)
      · exact fun hs => not_mem_of_test htest (referenced_removeMethods hs)

theorem removes_forwarders (hrun : Forwarder.run u = .ok (changes, v)) (h : u.Removes v kind s) :
    s ∉ v.referenced kind := by
  obtain ⟨_, -, hrun⟩ := bind_eq_ok.mp hrun
  cases hrun
  refine fun hs => absurd (referenced_removeMethods (referenced_removeFields hs)) ?_
  rcases h.of_removeFields with h | ⟨rfl, f, -, htest, rfl⟩
  · rcases h.of_removeMethods with h | ⟨rfl, m, -, htest, rfl⟩
    · exact absurd h (not_removes_withMethods (.redirectCalls ..))
    · rw [Bool.and_comm] at htest
      exact not_mem_of_test htest
  · exact not_mem_of_test htest

/-- The signature of static initializers. -/
def initializer : Signature := ⟨"<clinit>", "()V"⟩

theorem removes_staticJunk (h : u.Removes (StaticJunk.run u).2 kind s) :
    kind = .method ∧ s = initializer ∨ s ∉ (StaticJunk.run u).2.referenced kind := by
  unfold StaticJunk.run at h ⊢
  split at h
  · exact absurd h (not_removes_of_members rfl)
  · rename_i b hb
    obtain ⟨m, hm, hmb⟩ := Option.bind_eq_some_iff.mp hb
    have hms := RewrittenAll.withInitializer hm hmb
      (b.strip_rewritten (StaticJunk.find? u.name u.readFields b.referencedSet.contains))
    rcases h.of_removeFields with h | ⟨rfl, f, -, htest, rfl⟩
    · -- only the initializer goes before the fields do
      split at h
      · rcases h.of_removeMethods with h | ⟨rfl, m, -, htest, rfl⟩
        · exact absurd h (not_removes_withMethods hms)
        · simp only [StaticJunk.isInitializer, Bool.and_eq_true, beq_iff_eq] at htest
          exact .inl ⟨rfl, congrArg₂ Signature.mk htest.1 htest.2⟩
      · exact absurd h (not_removes_withMethods hms)
    · exact .inr fun hs => not_mem_of_test htest (referenced_removeFields hs)

end ClassUnit

namespace UnitPass

/-- The passes that tidy a class up. -/
def tidying : List UnitPass := [junkMembers, handleGenerators, xorHelpers, proxyMembers, staticInitializer]

/-- A pass that tidies a class up leaves nothing dangling. It only takes members out and changes bodies, and
what it takes out, a static initializer that it emptied apart, is neither among the references of the class
that it leaves nor named by the code of that class in any way. -/
theorem removes_only_unnamed {p : UnitPass} (hp : p ∈ tidying) {u v : ClassUnit} {c c' : Context} {changes : Nat}
    (h : p.run u c = .ok (changes, v, c')) :
    u.Rewritten changes v ∧ ∀ kind s, u.Removes v kind s →
      (p = staticInitializer ∧ kind = .method ∧ s = ClassUnit.initializer) ∨
        (s ∉ v.referenced kind ∧ ∀ way, ¬ v.Names way kind s) := by
  have hall : p ∈ all := by
    simp only [tidying, mem_cons, not_mem_nil, or_false] at hp
    rcases hp with rfl | rfl | rfl | rfl | rfl <;> simp [all]
  refine ⟨run_rewritten hall h, fun kind s hremoves => ?_⟩
  have hunnamed : (p = staticInitializer ∧ kind = .method ∧ s = initializer) ∨ s ∉ v.referenced kind := by
    simp only [tidying, mem_cons, not_mem_nil, or_false] at hp
    rcases hp with rfl | rfl | rfl | rfl | rfl
    · obtain ⟨-, rfl⟩ := ofTotal_eq_ok h
      exact .inr (removes_junkMembers hremoves)
    · obtain ⟨-, rfl⟩ := ofTotal_eq_ok h
      exact .inr (removes_removeHandleMakers hremoves)
    · obtain ⟨-, rfl⟩ := ofTotal_eq_ok h
      exact .inr (removes_xorHelpers hremoves)
    · obtain ⟨⟨k, w⟩, hrun, h⟩ := bind_eq_ok.mp h
      cases h
      exact .inr (removes_forwarders hrun hremoves)
    · obtain ⟨-, rfl⟩ := ofTotal_eq_ok h
      exact (removes_staticJunk hremoves).imp_left fun hinit => ⟨rfl, hinit⟩
  refine hunnamed.imp_right fun hs => ⟨hs, fun way hnames => hs ?_⟩
  exact mem_referenced.mpr ⟨way, hnames⟩

end UnitPass

/-! ### A forwarder that goes -/

/-- A static method with some code, in a class that is not read from a file. -/
def Method.ofInstrs (access : UInt16) (name descriptor : String) (instrs : List Instr) : Method :=
  { (default : Method) with
    access := ⟨access⟩, name, descriptor, body := some { maxStack := 4, maxLocals := 4, code := .ofInstrs instrs } }

/-- Calls a method of the class that has some signature. -/
def Instruction.callOf (s : Signature) : Instr := .invoke .static ⟨"A", s.name, s.descriptor⟩ false

/-- One method calls another, which only forwards to a third. -/
def forwardingClass : ClassUnit :=
  { (default : ClassUnit) with
    name := "A"
    methods :=
      [.ofInstrs 8 "m" "()V" [.callOf ⟨"f", "()V"⟩, .leave none],
       .ofInstrs 10 "f" "()V" [.callOf ⟨"g", "()V"⟩, .leave none],
       .ofInstrs 10 "g" "()V" [.callOf ⟨"m", "()V"⟩, .callOf ⟨"f", "()V"⟩, .leave none]] }

/-- The forwarder is taken out, and the calls of it go to where it forwarded. -/
theorem forwardingClass_removes :
    ∃ v c, UnitPass.proxyMembers.run forwardingClass {} = .ok (3, v, c) ∧
      forwardingClass.Removes v .method ⟨"f", "()V"⟩ ∧ (∀ way, ¬ v.Names way .method ⟨"f", "()V"⟩) ∧
      v.referenced .method = [⟨"g", "()V"⟩, ⟨"m", "()V"⟩, ⟨"g", "()V"⟩] := by
  have hrun : (do
      let r ← UnitPass.proxyMembers.run forwardingClass {}
      return (r.1, decide (forwardingClass.Removes r.2.1 .method ⟨"f", "()V"⟩), r.2.1.referenced .method)) =
        Except.ok (3, true, [⟨"g", "()V"⟩, ⟨"m", "()V"⟩, ⟨"g", "()V"⟩]) := by
    decide +kernel
  obtain ⟨⟨_, v, c⟩, hr, hrun⟩ := bind_eq_ok.mp hrun
  simp only [pure, Except.pure, Except.ok.injEq, Prod.mk.injEq, decide_eq_true_eq] at hrun
  obtain ⟨rfl, hremoves, hreferenced⟩ := hrun
  have hp : UnitPass.proxyMembers ∈ UnitPass.tidying := by simp [UnitPass.tidying]
  rcases (UnitPass.removes_only_unnamed hp hr).2 _ _ hremoves with ⟨-, -, hinit⟩ | ⟨-, hnames⟩
  · exact absurd hinit (by decide)
  · exact ⟨v, c, hr, hremoves, hnames, hreferenced⟩

end Untangle
