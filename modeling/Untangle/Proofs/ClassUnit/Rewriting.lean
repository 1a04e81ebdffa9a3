import Untangle.Proofs.Engine.WellFormed
import Untangle.Proofs.Simplification.ChangeCount

/-!
# What passes do to a class

A pass over a class takes members out and changes bodies, and nothing else: the members that stay are in
the old order, with their old records, and the file that the class was read from is as it was. Its change
count is honest: it is zero only if the class is the same as before, and a class that changed says so.
-/

namespace Untangle

open List

variable {k : Nat} {m m' : Method} {u u' : ClassUnit} {j changes : Nat} {b : Body} {c c' : Context}
  {s s' : ClassUnit × Context}

/-! ### Methods -/

/-- `k` changes make one method of another: at most its body differs. -/
inductive Method.Rewritten : Nat → Method → Method → Prop
  | same (m : Method) : Method.Rewritten 0 m m
  | body {m : Method} {b b' : Body} {k : Nat} (hb : m.body = some b) (h : b.Rewritten k b') :
      Method.Rewritten k m { m with body := some b' }

namespace Method

theorem Rewritten.trans {m'' : Method} (h : Rewritten k m m') (h' : Rewritten j m' m'') : Rewritten (k + j) m m'' := by
  cases h with
  | same => rwa [zero_add]
  | body hb h =>
    cases h' with
    | same => exact .body hb h
    | body hb' h' =>
      cases hb'
      exact .body hb (h.trans h')

theorem Rewritten.honest (h : Rewritten k m m') : Honest isModified k m m' := by
  cases h with
  | same => exact .refl _ m
  | body hb h =>
    rcases h.honest with ⟨rfl, rfl⟩ | ⟨hk, hm⟩
    · refine .inl ⟨rfl, ?_⟩
      rw [← hb]
    · exact .inr ⟨hk.imp_right fun hm => by simp [isModified, hb, hm], by simp [isModified, hm]⟩

theorem Rewritten.record (h : Rewritten k m m') : m'.record = m.record := by
  cases h <;> rfl

/-- The method was made of another one by some changes. -/
def ComesFrom (m' m : Method) : Prop := ∃ k, Rewritten k m m'

instance : Std.Refl ComesFrom := ⟨fun m => ⟨0, .same m⟩⟩

instance : IsTrans Method ComesFrom := ⟨fun _ _ _ ⟨k, h⟩ ⟨j, h'⟩ => ⟨j + k, h'.trans h⟩⟩

end Method

/-- `k` changes make some methods of others, one by one. -/
inductive RewrittenAll : Nat → List Method → List Method → Prop
  | nil : RewrittenAll 0 [] []
  | cons {k j : Nat} {m m' : Method} {ms ms' : List Method} (h : m.Rewritten k m') (hs : RewrittenAll j ms ms') :
      RewrittenAll (k + j) (m :: ms) (m' :: ms')

namespace RewrittenAll

variable {ms ms' : List Method}

theorem same (m : Method) (h : RewrittenAll k ms ms') : RewrittenAll k (m :: ms) (m :: ms') := by
  have hcons := cons (.same m) h
  rwa [zero_add] at hcons

theorem refl (ms : List Method) : RewrittenAll 0 ms ms := by
  induction ms with
  | nil => exact .nil
  | cons m ms ih => exact ih.same m

theorem honest (h : RewrittenAll k ms ms') : Honest (List.any · Method.isModified) k ms ms' := by
  induction h with
  | nil => exact .refl _ []
  | cons h _ ih =>
    rcases h.honest with ⟨rfl, rfl⟩ | ⟨hk, hm⟩
    · rcases ih with ⟨rfl, rfl⟩ | ⟨hj, hms⟩
      · exact .refl _ _
      · exact .inr ⟨hj.imp (by omega) fun h => by simp_all, by simp_all⟩
    · exact .inr ⟨hk.imp (by omega) fun h => by simp_all, by simp_all⟩

theorem comesFrom (h : RewrittenAll k ms ms') : List.SublistForall₂ Method.ComesFrom ms' ms := by
  induction h with
  | nil => exact .nil
  | cons h _ ih => exact .cons ⟨_, h⟩ ih

/-! #### Loops over methods -/

theorem elementwise : Elementwise Method.Rewritten RewrittenAll := ⟨.nil, .cons⟩

theorem foldCalls (owner : String) (helpers : List String) (ms : List Method) :
    RewrittenAll (XorHelpers.foldCalls owner helpers 0 [] ms).1 ms (XorHelpers.foldCalls owner helpers 0 [] ms).2 :=
  elementwise.foldCalls .same (fun hb => .body hb (Body.sweep_rewritten _ _)) ms

theorem redirectCalls (owner : String) (fs : List Forwarder) (ms : List Method) :
    RewrittenAll (Forwarder.redirectCalls owner fs 0 [] ms).1 ms (Forwarder.redirectCalls owner fs 0 [] ms).2 :=
  elementwise.redirectCalls (fun _ => .same _) (fun hb _ => .body hb (Body.sweep_rewritten _ _)) ms

theorem decryptMethods (k : Strings.Known) (p : Strings.Progress) (ms : List Method) :
    RewrittenAll (Strings.decryptMethods k p 0 [] ms).2.1 ms (Strings.decryptMethods k p 0 [] ms).2.2 :=
  elementwise.decryptMethods .same (fun p hb _ => .body hb (Body.sweepWith_rewritten _ _ p)) p ms

theorem withInitializer {b' : Body} (hm : ms.find? StaticJunk.isInitializer = some m) (hb : m.body = some b)
    (h : b.Rewritten k b') : RewrittenAll k ms (StaticJunk.withInitializer b' ms) := by
  induction ms with
  | nil => cases hm
  | cons a rest ih =>
    unfold StaticJunk.withInitializer
    rw [find?_cons] at hm
    rw [findIdx_cons]
    split at hm
    · rename_i ha
      cases hm
      rw [ha]
      exact cons (.body hb h) (.refl rest)
    · rename_i ha
      rw [ha]
      exact (ih hm).same a

end RewrittenAll

/-! ### Classes -/

namespace ClassUnit

/-- `k` changes make one class of another. -/
structure Rewritten (k : Nat) (u u' : ClassUnit) : Prop where
  file : u'.file = u.file
  fields : u'.fields.Sublist u.fields
  methods : List.SublistForall₂ Method.ComesFrom u'.methods u.methods
  honest : Honest isModified k u u'

namespace Rewritten

theorem refl (u : ClassUnit) : u.Rewritten 0 u := ⟨rfl, .refl _, Std.Refl.refl _, .refl _ u⟩

theorem trans {v w : ClassUnit} (h : Rewritten k u v) (h' : Rewritten j v w) : Rewritten (k + j) u w :=
  ⟨h'.file.trans h.file, h'.fields.trans h.fields, IsTrans.trans _ _ _ h'.methods h.methods,
    h.honest.trans h'.honest⟩

theorem removeMethods (u : ClassUnit) (test : Method → Bool) :
    Rewritten (u.removeMethods test).1 u (u.removeMethods test).2 := by
  unfold ClassUnit.removeMethods
  split
  · exact .refl u
  · rename_i hremoved
    exact ⟨rfl, .refl _, filter_sublist.sublistForall₂, .of_pos (pos_of_ne_zero hremoved) rfl⟩

theorem removeFields (u : ClassUnit) (test : Field → Bool) :
    Rewritten (u.removeFields test).1 u (u.removeFields test).2 := by
  unfold ClassUnit.removeFields
  split
  · exact .refl u
  · rename_i hremoved
    exact ⟨rfl, filter_sublist, Std.Refl.refl _, .of_pos (pos_of_ne_zero hremoved) rfl⟩

theorem withMethods {methods : List Method} (h : RewrittenAll k u.methods methods) :
    Rewritten k u { u with methods } := by
  refine ⟨rfl, .refl _, h.comesFrom, ?_⟩
  rcases h.honest with ⟨rfl, rfl⟩ | ⟨hk, hm⟩
  · exact .refl _ u
  · exact .inr ⟨hk.imp_right fun hm => by simp [isModified, hm], by simp [isModified, hm]⟩

/-! #### Passes -/

theorem xorHelpers (u : ClassUnit) : Rewritten (XorHelpers.run u).1 u (XorHelpers.run u).2 := by
  have hfolded := withMethods
    (RewrittenAll.foldCalls u.name ((u.methods.filter XorHelpers.isHelper).map Method.name) u.methods)
  unfold XorHelpers.run
  dsimp only
  split
  · exact .refl u
  · split
    · next heq =>
      rw [heq] at hfolded
      exact hfolded
    · next heq =>
      rw [heq] at hfolded
      exact hfolded.trans (removeMethods _ _)

theorem callSites (u : ClassUnit) : Rewritten (CallSites.run u).1 u (CallSites.run u).2 := by
  have hresolved := withMethods (RewrittenAll.elementwise.resolveMethods .same
    (fun hb => .body hb (CallSites.resolveBody_rewritten u.name (CallSites.linkers u) _)) u.methods)
  unfold CallSites.run
  dsimp only
  split
  · exact .refl u
  · split
    · exact hresolved
    · exact (hresolved.trans (removeMethods _ _)).trans (removeFields _ _)

theorem strings (u : ClassUnit) (c : Context) : Rewritten (Strings.run u c).1 u (Strings.run u c).2.1 := by
  have hdecrypted := withMethods (RewrittenAll.decryptMethods (Strings.Known.of u) ⟨c, []⟩ u.methods)
  unfold Strings.run
  dsimp only
  split
  · exact .refl u
  · split
    · next hk => rwa [hk] at hdecrypted
    · exact hdecrypted.trans (removeMethods _ _)

theorem constructorJunk (u : ClassUnit) : Rewritten (ConstructorJunk.run u).1 u (ConstructorJunk.run u).2 :=
  withMethods (RewrittenAll.elementwise.cleanMethods .same (fun hb => .body hb (Body.clean_rewritten _ _)) u.methods)

theorem staticJunk (u : ClassUnit) : Rewritten (StaticJunk.run u).1 u (StaticJunk.run u).2 := by
  unfold StaticJunk.run
  dsimp only
  split
  · exact .refl u
  · rename_i b hb
    obtain ⟨m, hm, hmb⟩ := Option.bind_eq_some_iff.mp hb
    have hstripped := withMethods (RewrittenAll.withInitializer hm hmb
      (b.strip_rewritten (StaticJunk.find? u.name u.readFields b.referencedSet.contains)))
    split
    · exact (hstripped.trans (removeMethods _ _)).trans (removeFields _ _)
    · exact (hstripped.trans (.refl _)).trans (removeFields _ _)

theorem junkMembers (u : ClassUnit) : Rewritten (JunkMembers.run u).1 u (JunkMembers.run u).2 :=
  (removeFields _ _).trans (removeMethods _ _)

theorem forwarders (h : Forwarder.run u = .ok (changes, u')) : Rewritten changes u u' := by
  obtain ⟨_, -, h⟩ := bind_eq_ok.mp h
  cases h
  exact ((withMethods (.redirectCalls ..)).trans (removeMethods _ _)).trans (removeFields _ _)

end Rewritten

end ClassUnit

namespace UnitPass

section Total

variable {name : String} {f : ClassUnit → Nat × ClassUnit} (h : (ofTotal name f).run u c = .ok (changes, u', c'))

include h

theorem ofTotal_eq_ok : changes = (f u).1 ∧ u' = (f u).2 := by
  have hrun : ((f u).1, (f u).2, c) = (changes, u', c') := Except.ok.inj h
  cases hrun
  exact ⟨rfl, rfl⟩

theorem ofTotal_rewritten (hf : u.Rewritten (f u).1 (f u).2) : u.Rewritten changes u' := by
  obtain ⟨rfl, rfl⟩ := ofTotal_eq_ok h
  exact hf

end Total

/-- The count of a pass over classes is honest, and the pass only takes members out and changes bodies. -/
theorem run_rewritten {p : UnitPass} (hp : p ∈ all) (h : p.run u c = .ok (changes, u', c')) :
    u.Rewritten changes u' := by
  simp only [all, mem_cons, not_mem_nil, or_false] at hp
  rcases hp with rfl | rfl | rfl | rfl | rfl | rfl | rfl | rfl
  · have hrun : Strings.run u c = (changes, u', c') := Except.ok.inj h
    have hstrings := ClassUnit.Rewritten.strings u c
    rwa [hrun] at hstrings
  · exact ofTotal_rewritten h (.callSites u)
  · exact ofTotal_rewritten h (.removeMethods u _)
  · exact ofTotal_rewritten h (.xorHelpers u)
  · exact ofTotal_rewritten h (.constructorJunk u)
  · exact ofTotal_rewritten h (.staticJunk u)
  · exact ofTotal_rewritten h (.junkMembers u)
  · obtain ⟨⟨k, v⟩, hrun, h⟩ := bind_eq_ok.mp h
    cases h
    exact .forwarders hrun

end UnitPass

/-! ### Runs -/

/-- The bodies that were not changed are tidy. -/
def ClassUnit.Tidy (u : ClassUnit) : Prop :=
  ∀ m ∈ u.methods, ∀ b, m.body = some b → b.isModified = false → b.Tidy

theorem Method.ComesFrom.tidy (h : m'.ComesFrom m) (hm : ∀ b, m.body = some b → b.isModified = false → b.Tidy)
    (hb : m'.body = some b) (hunmodified : b.isModified = false) : b.Tidy := by
  obtain ⟨k, h⟩ := h
  cases h with
  | same => exact hm b hb hunmodified
  | body hold h =>
    cases hb
    obtain ⟨-, rfl⟩ := h.honest.eq_of_modified_eq_false hunmodified
    exact hm _ hold hunmodified

/-- Every method of the new class comes from one of the old class. -/
theorem exists_comesFrom (h : List.SublistForall₂ Method.ComesFrom ms' ms) (hm' : m' ∈ ms') :
    ∃ m ∈ ms, m'.ComesFrom m := by
  obtain ⟨kept, hkept, hsub⟩ := sublistForall₂_iff.mp h
  obtain ⟨m, hm, hfrom⟩ := exists_of_forall₂_left hkept hm'
  exact ⟨m, hsub.subset hm, hfrom⟩

theorem ClassUnit.Tidy.rewritten (h : u.Tidy) (hr : u.Rewritten k u') : u'.Tidy := by
  intro _ hm' b hb
  obtain ⟨m, hm, hfrom⟩ := exists_comesFrom hr.methods hm'
  exact hfrom.tidy (h m hm) hb

/-- A pass over one body is a change to the class. -/
theorem Step.rewritten (hs : Step s s') (h : s.1.Tidy) : ∃ k, s.1.Rewritten k s'.1 := by
  cases hs with
  | overBody hp hm hb hr =>
    rename_i u c p before after m b b' changes
    have htidy := h m (by rw [hm]; simp) b hb
    have hall : ∀ before : List Method, RewrittenAll changes (before ++ m :: after)
        (before ++ { m with body := some b' } :: after) := by
      intro before
      induction before with
      | nil => exact .cons (.body hb (MethodPass.run_rewritten hp htidy hr)) (.refl after)
      | cons n before ih => exact ih.same n
    have hms : RewrittenAll changes u.methods _ := hm ▸ hall before
    exact ⟨changes, .withMethods hms⟩
  | overClass hp hr => exact ⟨_, UnitPass.run_rewritten hp hr⟩

theorem rewritten_of_steps (hs : Relation.ReflTransGen Step s s') (h : s.1.Tidy) : ∃ k, s.1.Rewritten k s'.1 := by
  induction hs with
  | refl => exact ⟨0, .refl _⟩
  | tail _ hstep ih =>
    obtain ⟨k, hk⟩ := ih
    obtain ⟨j, hj⟩ := hstep.rewritten (h.rewritten hk)
    exact ⟨k + j, hk.trans hj⟩

end Untangle
