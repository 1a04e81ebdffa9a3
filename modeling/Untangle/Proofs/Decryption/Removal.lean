import Untangle.Proofs.Decryption.Leftovers

/-!
# What the decryption of strings takes out

A run takes out the routines of which it replaced a call, and the methods with generated names that provided
their data, unless something still calls them. It goes by the signature for a routine and by the name for a
provider. So a method that is neither is taken out with them if it has the signature of such a routine, or the
name of a provider, whatever its descriptor, its code or its access; and no other method is.
-/

namespace Untangle

open List

variable {u : ClassUnit} {c : Context} {s : Signature} {m : Method}

namespace Strings

/-! ### The calls that are replaced -/

/-- The routine that the call goes to, if something was put in the place of the call. -/
def Site.replaced? (site : Site) : Option Signature := site.replacement.map fun _ => site.signature

/-- The routines of the calls that are replaced in one method. -/
def replacedIn (row : List (Option Site)) : List Signature := row.filterMap (·.bind Site.replaced?)

/-- The routines of which a run replaces a call, once for each call. -/
def replaced (u : ClassUnit) (c : Context) : List Signature := (sitesIn u c).flatMap replacedIn

/-- A step notes the routine just if it replaces a call. -/
theorem rule_used (k : Known) (method : String) (referenced : Label → Bool) (p : Progress) (passed : List Node)
    (n : Node) :
    (rule k method referenced p passed n).1.used =
        ((siteAt k method referenced p passed n).bind Site.replaced?).toList ++ p.used ∧
      (rule k method referenced p passed n).2.isSome =
        ((siteAt k method referenced p passed n).bind Site.replaced?).isSome := by
  cases hcall : callAt? k referenced passed n with
  | none => simp [rule_of_none hcall, siteAt_of_none hcall]
  | some found =>
    obtain ⟨s, call, _⟩ := found
    obtain ⟨hplaced, hused, -⟩ := rule_of_some method p hcall
    rw [hplaced, hused, siteAt_of_some hcall]
    cases p.context.cache.outcomeOf (keyOf s call) call <;> simp [Site.replaced?]

theorem sweepWith_used (k : Known) (method : String) (referenced : Label → Bool) (p : Progress) (changes : Nat)
    (passed ns : List Node) :
    (sweepWith (rule k method referenced) p changes passed ns).1.used =
        (replacedIn (sites k method referenced p passed ns)).reverse ++ p.used ∧
      (sweepWith (rule k method referenced) p changes passed ns).2.1 =
        changes + (replacedIn (sites k method referenced p passed ns)).length := by
  induction ns generalizing p changes passed with
  | nil => simp [sweepWith, sites, replacedIn]
  | cons n ns ih =>
    obtain ⟨hused, hsome⟩ := rule_used k method referenced p passed n
    obtain ⟨ihused, ihchanges⟩ := ih (rule k method referenced p passed n).1
      (changes + if (rule k method referenced p passed n).2.isSome then 1 else 0)
      ((rule k method referenced p passed n).2.getD (n :: passed))
    rw [sweepWith_cons, ihused, ihchanges, hused, hsome]
    cases hsite : (siteAt k method referenced p passed n).bind Site.replaced? with
    | none => simp [sites, replacedIn, hsite]
    | some s =>
      simp only [sites, replacedIn, hsite, filterMap_cons, reverse_cons, length_cons, Option.toList_some,
        Option.isSome_some, if_true, append_assoc, true_and]
      omega

theorem decryptMethods_used (k : Known) (p : Progress) (changes : Nat) (done ms : List Method) :
    (decryptMethods k p changes done ms).1.used = ((sitesOf k p ms).flatMap replacedIn).reverse ++ p.used ∧
      (decryptMethods k p changes done ms).2.1 = changes + ((sitesOf k p ms).flatMap replacedIn).length := by
  induction ms generalizing p changes done with
  | nil => simp [decryptMethods, sitesOf]
  | cons m ms ih =>
    cases hb : m.body with
    | none => simpa [decryptMethods, sitesOf, hb, replacedIn] using ih p changes (m :: done)
    | some b =>
      cases hroutine : k.routine? m.signature with
      | some r => simpa [decryptMethods, sitesOf, hroutine, replacedIn] using ih p changes (m :: done)
      | none =>
        obtain ⟨hused, hchanges⟩ := sweepWith_used k m.name b.referencedSet.contains p 0 [] b.nodes
        rw [← b.sweepWith_fst] at hused
        rw [← b.sweepWith_changes, zero_add] at hchanges
        obtain ⟨ihused, ihchanges⟩ := ih (b.sweepWith (rule k m.name) p).1
          (changes + (b.sweepWith (rule k m.name) p).2.1)
          ({ m with body := some (b.sweepWith (rule k m.name) p).2.2 } :: done)
        simp only [decryptMethods, sitesOf, hb, hroutine, flatMap_cons, reverse_append, length_append]
        exact ⟨by rw [ihused, hused, append_assoc], by rw [ihchanges, hchanges, add_assoc]⟩

/-- The class as a run leaves it, before any method is taken out. -/
def cleared (u : ClassUnit) (c : Context) : ClassUnit :=
  { u with methods := (decryptMethods (Known.of u) ⟨c, []⟩ 0 [] u.methods).2.2 }

theorem members_cleared (u : ClassUnit) (c : Context) : (cleared u c).members .method = u.members .method :=
  (RewrittenAll.decryptMethods (Known.of u) ⟨c, []⟩ u.methods).signatures

/-- Only calls of routines are replaced. -/
theorem routine?_of_replaced (h : s ∈ replaced u c) : ∃ r, (Known.of u).routine? s = some r := by
  obtain ⟨_, hrow, hs⟩ := mem_flatMap.mp h
  obtain ⟨_, hsite?, hs⟩ := mem_filterMap.mp hs
  obtain ⟨_, rfl, hs⟩ := Option.bind_eq_some_iff.mp hs
  obtain ⟨-, -, rfl⟩ := Option.map_eq_some_iff.mp hs
  obtain ⟨r, -, hr, -⟩ := makes_of_mem_sitesOf hrow hsite?
  exact ⟨r, hr⟩

/-! ### The methods that go -/

/-- After the calls are replaced, the method is still called from code other than that of the routines that
the calls went to. -/
def StillCalls (u : ClassUnit) (c : Context) (s : Signature) : Prop :=
  ∃ m ∈ (cleared u c).methods, m.signature ∉ replaced u c ∧ m.Names u.name .call .method s

/-- Some method with this name does nothing but fill an array of bytes and return it. -/
def Provides (u : ClassUnit) (name : String) : Prop :=
  ∃ m ∈ u.methods, m.name = name ∧ (StaticData.provided? m).isSome

/-- What a run does to a class, in terms of the calls that it replaces. -/
theorem run_eq (u : ClassUnit) (c : Context) :
    (run u c).2.1 =
      if (Known.of u).routines = [] then u
      else if replaced u c = [] then cleared u c
      else ((cleared u c).removeMethods fun m => (Known.of u).drops
        (stillCalled (cleared u c) (replaced u c).reverse) (replaced u c).reverse m.signature).2 := by
  have hused : (decryptMethods (Known.of u) ⟨c, []⟩ 0 [] u.methods).1.used = (replaced u c).reverse :=
    (decryptMethods_used (Known.of u) ⟨c, []⟩ 0 [] u.methods).1.trans (append_nil _)
  have hchanges : (decryptMethods (Known.of u) ⟨c, []⟩ 0 [] u.methods).2.1 = (replaced u c).length :=
    (decryptMethods_used (Known.of u) ⟨c, []⟩ 0 [] u.methods).2.trans (zero_add _)
  unfold run
  dsimp only
  rw [hused, hchanges]
  simp only [List.isEmpty_iff, length_eq_zero_iff]
  split_ifs <;> rfl

/-- What is left of the signatures of a class. -/
theorem members_run (u : ClassUnit) (c : Context) :
    (run u c).2.1.members .method =
      if replaced u c = [] then u.members .method
      else (u.members .method).filter fun s =>
        !(Known.of u).drops (stillCalled (cleared u c) (replaced u c).reverse) (replaced u c).reverse s := by
  have hnone : (Known.of u).routines = [] → replaced u c = [] := by
    intro hempty
    refine eq_nil_iff_forall_not_mem.mpr fun s hs => ?_
    obtain ⟨r, hr⟩ := routine?_of_replaced hs
    have hmem := Known.mem_routines hr
    rw [hempty] at hmem
    cases hmem
  rw [run_eq]
  split_ifs with hempty hnil hnil
  · rfl
  · exact absurd (hnone hempty) hnil
  · exact members_cleared u c
  · rw [← members_cleared u c, ClassUnit.members, ClassUnit.members, ClassUnit.methods_removeMethods, filter_map]
    rfl

theorem provides_iff (u : ClassUnit) (name : String) :
    ((Known.of u).providers.lookup name).isSome ↔ Provides u name := by
  rw [lookup_isSome_iff]
  simp only [Known.of, StaticData.providers, mem_filterMap, Option.map_eq_some_iff, beq_iff_eq, Provides,
    Option.isSome_iff_exists]
  constructor
  · rintro ⟨_, ⟨m, hm, data, hdata, rfl⟩, rfl⟩
    exact ⟨m, hm, rfl, data, hdata⟩
  · rintro ⟨m, hm, rfl, data, hdata⟩
    exact ⟨(m.name, data), ⟨m, hm, data, hdata, rfl⟩, rfl⟩

/-- Which signatures a run takes methods from: once some call is replaced, those that are no longer called and
belong to a routine of which a call was replaced or have the generated name of a provider. -/
theorem removes_run_iff :
    u.Removes (run u c).2.1 .method s ↔
      s ∈ u.members .method ∧ replaced u c ≠ [] ∧ ¬ StillCalls u c s ∧
        (s ∈ replaced u c ∨ Provides u s.name ∧ GeneratedName.isLowercaseRun 10 s.name) := by
  have hdrops : (Known.of u).drops (stillCalled (cleared u c) (replaced u c).reverse) (replaced u c).reverse s ↔
      ¬ StillCalls u c s ∧ (s ∈ replaced u c ∨ Provides u s.name ∧ GeneratedName.isLowercaseRun 10 s.name) := by
    simp only [Known.drops, Bool.and_eq_true, Bool.or_eq_true, Bool.not_eq_true', contains_eq_mem,
      decide_eq_false_iff_not, decide_eq_true_eq, mem_stillCalled, mem_reverse, provides_iff]
    rfl
  rw [ClassUnit.Removes, members_run, ← hdrops]
  by_cases hnil : replaced u c = []
  · simp [hnil]
  · rw [if_neg hnil]
    by_cases hs : (Known.of u).drops (stillCalled (cleared u c) (replaced u c).reverse) (replaced u c).reverse s
    · simp [hs, hnil, count_eq_zero_of_not_mem]
    · rw [count_filter (by simpa using hs)]
      simp [hs]

/-! ### Helpers and their namesakes -/

/-- A helper of the decryption: a routine of which a call is replaced, or a static method without parameters that
provides an array of bytes and has a generated name. -/
def IsHelper (u : ClassUnit) (c : Context) (m : Method) : Prop :=
  (m.signature ∈ replaced u c ∧ (Routine.of? u.name (StaticData.tables u) m).isSome) ∨
    (m.isStatic ∧ m.descriptor = "()[B" ∧ (StaticData.provided? m).isSome ∧ GeneratedName.isLowercaseRun 10 m.name)

instance (u : ClassUnit) (c : Context) (m : Method) : Decidable (IsHelper u c m) :=
  inferInstanceAs (Decidable (_ ∨ _))

/-- No helper, but taken for one: it has the signature of a routine of which a call is replaced, and is none; or it
has the generated name of a provider, and provides nothing. -/
def IsNamesake (u : ClassUnit) (c : Context) (m : Method) : Prop :=
  (m.signature ∈ replaced u c ∧ Routine.of? u.name (StaticData.tables u) m = none) ∨
    (m.signature ∉ replaced u c ∧ StaticData.provided? m = none ∧ Provides u m.name ∧
      GeneratedName.isLowercaseRun 10 m.name)

theorem provided?_isSome (h : (StaticData.provided? m).isSome) : m.isStatic ∧ m.descriptor = "()[B" := by
  unfold StaticData.provided? at h
  split at h
  · rename_i hshape
    exact ⟨hshape.2, hshape.1⟩
  · cases h

/-- What is taken for a helper and is none is a namesake. -/
theorem isNamesake_iff :
    IsNamesake u c m ↔
      (m.signature ∈ replaced u c ∨ Provides u m.name ∧ GeneratedName.isLowercaseRun 10 m.name) ∧
        ¬ IsHelper u c m := by
  constructor
  · rintro (⟨hs, hnone⟩ | ⟨hs, hnone, hprovides, hname⟩)
    · refine ⟨.inl hs, ?_⟩
      rintro (⟨-, hroutine⟩ | ⟨-, hdescriptor, -⟩)
      · rw [hnone] at hroutine
        cases hroutine
      · -- some routine has this signature, and so it takes something
        obtain ⟨r, hr⟩ := routine?_of_replaced hs
        obtain ⟨m', -, hr', hsignature⟩ := Known.exists_method hr
        obtain ⟨d, hparse, hparams, -⟩ := Routine.exists_descriptor hr'
        have hsame : m'.descriptor = "()[B" := (congrArg Signature.descriptor hsignature).trans hdescriptor
        rw [hsame] at hparse
        exact hparams (congrArg MethodDescriptor.params (Except.ok.inj hparse)).symm
    · refine ⟨.inr ⟨hprovides, hname⟩, ?_⟩
      rintro (⟨hs', -⟩ | ⟨-, -, hprovided, -⟩)
      · exact hs hs'
      · rw [hnone] at hprovided
        cases hprovided
  · rintro ⟨hqualifies, hhelper⟩
    by_cases hs : m.signature ∈ replaced u c
    · exact .inl ⟨hs, Option.not_isSome_iff_eq_none.mp fun hroutine => hhelper (.inl ⟨hs, hroutine⟩)⟩
    · obtain ⟨hprovides, hname⟩ := hqualifies.resolve_left hs
      refine .inr ⟨hs, Option.not_isSome_iff_eq_none.mp fun hprovided => hhelper (.inr ?_), hprovides, hname⟩
      obtain ⟨hstatic, hdescriptor⟩ := provided?_isSome hprovided
      exact ⟨hstatic, hdescriptor, hprovided, hname⟩

/-- When the decryption of strings takes out nothing but helpers, for every class and whatever is remembered: a
method that goes is always a routine of which a call is replaced or a provider with a generated name, exactly if
no call is replaced at all, or every namesake of such a helper is still called. -/
theorem removes_only_helpers_iff (u : ClassUnit) (c : Context) :
    (∀ m ∈ u.methods, u.Removes (run u c).2.1 .method m.signature → IsHelper u c m) ↔
      ∀ m ∈ u.methods, IsNamesake u c m → replaced u c = [] ∨ StillCalls u c m.signature := by
  refine forall_congr' fun m => imp_congr_right fun hm => ?_
  have hmember : m.signature ∈ u.members .method := mem_map_of_mem hm
  rw [removes_run_iff, isNamesake_iff]
  constructor
  · rintro h ⟨hqualifies, hhelper⟩
    by_contra! hgone
    exact hhelper (h ⟨hmember, hgone.1, hgone.2, hqualifies⟩)
  · rintro h ⟨-, hsome, hcalls, hqualifies⟩
    by_contra hhelper
    exact (h ⟨hqualifies, hhelper⟩).elim hsome hcalls

/-- A method that provides the text of a string. -/
def providing : Method :=
  .ofInstrs 8 "abcdefghij" "()[B"
    [.push (.int 4), .newArray StaticData.byteArray,
     .stack .dup, .push (.int 1), .push (.int 104), .plain Opcode.bastore,
     .stack .dup, .push (.int 3), .push (.int 105), .plain Opcode.bastore, .leave (some .ref)]

/-- A method of the same name, which has nothing to do with strings. -/
def overload : Method := .ofInstrs 9 "abcdefghij" "(I)V" [.leave none]

/-- A routine makes a string of the bytes that a method provides. -/
def overloadedClass : ClassUnit :=
  { (default : ClassUnit) with
    name := "A"
    methods :=
      [providing, overload,
       .ofInstrs 8 "d" "([B)Ljava/lang/String;"
        [.load .ref 0,
         .invoke .static ⟨"java/nio/ByteBuffer", "wrap", "([B)Ljava/nio/ByteBuffer;"⟩ false,
         .invoke .virtual ⟨"java/lang/Object", "toString", "()Ljava/lang/String;"⟩ false, .leave (some .ref)],
       .ofInstrs 9 "m" "()V"
        [.callOf providing.signature, .callOf ⟨"d", "([B)Ljava/lang/String;"⟩, .stack .pop, .leave none]] }

/-- The public method goes, only for its name. -/
theorem overloadedClass_removes_overload :
    overload ∈ overloadedClass.methods ∧
      overloadedClass.Removes (run overloadedClass {}).2.1 .method overload.signature ∧
      ¬ IsHelper overloadedClass {} overload := by
  decide +kernel

end Strings

end Untangle
