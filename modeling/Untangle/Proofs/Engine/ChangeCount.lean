import Untangle.Deobfuscator
import Untangle.Proofs.ClassFile.RoundTrip
import Untangle.Proofs.ClassUnit.Reading

/-!
# The report tells whether anything changed

The report of an engine adds up what its passes count. Since every count is honest, so is the sum: it is
zero exactly if the class says that it was not modified, and then the class keeps its bytes.

Rounds over bodies and rounds over classes are repeated in the same way, so what repeating does is said
once, for any kind of state whose changes can be counted.
-/

namespace Untangle

open List

variable {cap : Nat} {c : Context} {r' : Report} {repetition : Repetition} {x : ClassUnit × Context × Report}
  {v : ClassUnit} {d : Deobfuscator} {data : List UInt8}

variable {r : Report} {u : ClassUnit}

namespace Report

theorem total_bump (name : String) (count : Nat) (changes : List (String × Nat)) :
    (bump name count changes).foldr (fun c n => c.2 + n) 0 = changes.foldr (fun c n => c.2 + n) 0 + count := by
  induction changes with
  | nil => simp [bump]
  | cons c =>
    unfold bump
    split
    · simp only [foldr_cons]
      omega
    · simp only [foldr_cons]
      omega

theorem total_record (r : Report) (name : String) (count : Nat) : (r.record name count).total = r.total + count := by
  unfold record
  split
  · rename_i hcount
    rw [hcount, add_zero]
  · exact total_bump name count r.changes

end Report

/-! ### Rounds -/

/-- What it means that `k` changes make one state of another, and what has to hold of a state for its
changes to be counted. -/
structure Accounting (σ : Type) where
  Makes : Nat → σ → σ → Prop
  Ready : σ → Prop
  refl : ∀ s, Makes 0 s s
  trans : ∀ {k j s t u}, Makes k s t → Makes j t u → Makes (k + j) s u
  ready : ∀ {k s t}, Ready s → Makes k s t → Ready t

namespace Accounting

def bodies : Accounting Body where
  Makes k b b' := b.Rewritten k b'
  Ready b := b.isModified = false → b.Tidy
  refl := .refl
  trans := .trans
  ready := by
    intro k b b' hb h hm
    obtain ⟨-, rfl⟩ := h.honest.eq_of_modified_eq_false hm
    exact hb hm

def classes : Accounting (ClassUnit × Context) where
  Makes k s s' := s.1.Rewritten k s'.1
  Ready s := s.1.Tidy
  refl s := .refl s.1
  trans := .trans
  ready hs h := hs.rewritten h

end Accounting

namespace Round

variable {σ : Type} {a : Accounting σ}

/-- A round adds to the report as many changes as it makes. -/
def Tallies (a : Accounting σ) (round : Round σ) : Prop :=
  ∀ s r k s' r', a.Ready s → round s r = .ok (k, s', r') → r'.total = r.total + k ∧ a.Makes k s s'

theorem Tallies.repeated {round : Round σ} (h : round.Tallies a) {rounds : Nat} {s s' : σ} (hs : a.Ready s)
    (hr : round.repeated rounds s r = .ok (s', r')) : ∃ k, r'.total = r.total + k ∧ a.Makes k s s' := by
  induction rounds generalizing s r with
  | zero =>
    cases hr
    exact ⟨0, rfl, a.refl _⟩
  | succ rounds ih =>
    obtain ⟨⟨k, t, q⟩, hround, hr⟩ := bind_eq_ok.mp hr
    obtain ⟨htotal, hmakes⟩ := h s r k t q hs hround
    dsimp only at hr
    split at hr
    · cases hr
      exact ⟨k, htotal, hmakes⟩
    · obtain ⟨j, hrest, hmore⟩ := ih (a.ready hs hmakes) hr
      exact ⟨k + j, by omega, a.trans hmakes hmore⟩

theorem Tallies.run {round : Round σ} (h : round.Tallies a) {s s' : σ} (hs : a.Ready s)
    (hr : round.run repetition cap s r = .ok (s', r')) : ∃ k, r'.total = r.total + k ∧ a.Makes k s s' := by
  cases repetition with
  | fixedPoint => exact h.repeated hs hr
  | once =>
    obtain ⟨⟨k, t, q⟩, hround, hr⟩ := bind_eq_ok.mp hr
    cases hr
    exact ⟨k, h s r k _ _ hs hround⟩

theorem tallies_ofGroup {passes : List MethodPass} (hpasses : ∀ p ∈ passes, p ∈ MethodPass.all) :
    (ofGroup passes).Tallies .bodies := by
  intro b r sum b' r' hb h
  let R (x x' : Nat × Body × Report) : Prop := Accounting.bodies.Ready x.2.1 →
    ∃ k, x'.1 = x.1 + k ∧ x'.2.2.total = x.2.2.total + k ∧ x.2.1.Rewritten k x'.2.1
  have hsteps : R (0, b, r) (sum, b', r') := by
    refine rel_of_foldlM (fun x _ => ⟨0, rfl, rfl, .refl _⟩) ?_ ?_ h
    · intro x y z hxy hyz hx
      obtain ⟨k, hsum, htotal, hk⟩ := hxy hx
      obtain ⟨j, hsum', htotal', hj⟩ := hyz (Accounting.bodies.ready hx hk)
      exact ⟨k + j, by omega, by omega, hk.trans hj⟩
    · rintro p hp ⟨sum, b, r⟩ ⟨_, b', r'⟩ h hb
      obtain ⟨⟨k, c⟩, hrun, h⟩ := bind_eq_ok.mp h
      cases h
      exact ⟨k, rfl, r.total_record p.name k, MethodPass.run_rewritten (hpasses p hp) hb hrun⟩
  obtain ⟨k, hsum, htotal, hk⟩ := hsteps hb
  obtain rfl : sum = k := by omega
  exact ⟨htotal, hk⟩

theorem tallies_ofPass {pass : UnitPass} (hpass : pass ∈ UnitPass.all) : (ofPass pass).Tallies .classes := by
  rintro ⟨u, c⟩ r k ⟨_, _⟩ _ - h
  obtain ⟨⟨j, v, d⟩, hrun, h⟩ := bind_eq_ok.mp h
  cases h
  exact ⟨r.total_record pass.name _, UnitPass.run_rewritten hpass hrun⟩

end Round

/-! ### Stages, pipelines and engines -/

theorem Stage.overMethods_tallies {round : Round Body} (h : round.Tallies .bodies) {done ms out : List Method}
    (hready : ∀ m ∈ ms, ∀ b, m.body = some b → b.isModified = false → b.Tidy)
    (hr : overMethods round repetition cap r done ms = .ok (out, r')) :
    ∃ k ms', out = done.reverse ++ ms' ∧ r'.total = r.total + k ∧ RewrittenAll k ms ms' := by
  induction ms generalizing r done with
  | nil =>
    cases hr
    exact ⟨0, [], by simp, rfl, .nil⟩
  | cons m _ ih =>
    have hrest := fun n hn => hready n (mem_cons_of_mem m hn)
    unfold overMethods at hr
    split at hr
    · obtain ⟨k, ms', rfl, htotal, hms⟩ := ih hrest hr
      exact ⟨k, m :: ms', by simp, htotal, hms.same m⟩
    · rename_i b hb
      obtain ⟨⟨_, q⟩, hround, hr⟩ := bind_eq_ok.mp hr
      obtain ⟨j, hj, hrewritten⟩ := h.run (hready m mem_cons_self b hb) hround
      obtain ⟨k, ms', rfl, htotal, hms⟩ := ih hrest hr
      exact ⟨j + k, _ :: ms', by simp, by omega, .cons (.body hb hrewritten) hms⟩

/-- Consists of known passes. -/
def Stage.Known : Stage → Prop
  | methods passes _ => ∀ p ∈ passes, p ∈ MethodPass.all
  | unit pass _ => pass ∈ UnitPass.all

def Pipeline.Known (p : Pipeline) : Prop := ∀ s ∈ p.stages, s.Known

/-- Consists of known passes, in whatever stages, pipelines and families. -/
structure Engine.Known (e : Engine) : Prop where
  families : ∀ f ∈ e.families, f.pipeline.Known
  general : e.general.Known

/-- What was done to a class, and was added to the report. -/
def Tallied (x x' : ClassUnit × Context × Report) : Prop :=
  x.1.Tidy → ∃ k, x'.2.2.total = x.2.2.total + k ∧ x.1.Rewritten k x'.1

theorem Tallied.refl (x : ClassUnit × Context × Report) : Tallied x x := fun _ => ⟨0, rfl, .refl _⟩

theorem Tallied.trans (x y z : ClassUnit × Context × Report) (h : Tallied x y) (h' : Tallied y z) : Tallied x z := by
  intro hx
  obtain ⟨k, hk, hy⟩ := h hx
  obtain ⟨j, hj, hz⟩ := h' (hx.rewritten hy)
  exact ⟨k + j, by omega, hy.trans hz⟩

theorem Stage.run_tallied (s : Stage) (hs : s.Known) (h : s.run cap u c r = .ok x) : Tallied (u, c, r) x := by
  intro hu
  cases s with
  | methods _ repetition =>
    obtain ⟨⟨_, q⟩, hms, h⟩ := bind_eq_ok.mp h
    cases h
    obtain ⟨k, _, rfl, htotal, hall⟩ := overMethods_tallies (Round.tallies_ofGroup hs) hu hms
    exact ⟨k, htotal, .withMethods hall⟩
  | unit _ repetition =>
    obtain ⟨⟨⟨v, d⟩, q⟩, hround, h⟩ := bind_eq_ok.mp h
    cases h
    have hready : Accounting.classes.Ready (u, c) := hu
    exact (Round.tallies_ofPass hs).run hready hround

theorem Pipeline.run_tallied (p : Pipeline) (hp : p.Known) (h : p.run cap u c r = .ok x) : Tallied (u, c, r) x :=
  rel_of_foldlM Tallied.refl Tallied.trans (fun s hs _ _ hrun => s.run_tallied (hp s hs) hrun) h

namespace Engine

theorem run_rewritten {e : Engine} (he : e.Known) (hu : u.Tidy) {c' : Context} (h : e.run u c = .ok (v, c', r)) :
    u.Rewritten r.total v := by
  obtain ⟨⟨w, d, q⟩, hfamilies, hgeneral⟩ := bind_eq_ok.mp h
  have hfirst : Tallied (u, c, {}) (w, d, q) := by
    refine rel_of_foldlM Tallied.refl Tallied.trans ?_ hfamilies
    rintro f hf ⟨u, c, r⟩ x hrun
    -- the name of the family goes into the report first, which leaves the sum as it is
    exact f.pipeline.run_tallied (r := { r with families := r.families ++ [f.detector.name] })
      (he.families f (mem_filter.mp hf).1) hrun
  obtain ⟨k, hk, hrewritten⟩ := hfirst.trans _ _ _ (e.general.run_tallied he.general hgeneral) hu
  have htotal : r.total = k := by
    rw [show r.total = Report.total {} + k from hk]
    exact Nat.zero_add k
  rwa [htotal]

theorem standard_known (cap : Nat) : (standard cap).Known := by
  have hflow : Pipeline.flow.Known := fun p hp => mem_append_left _ hp
  have hexceptions : Pipeline.exceptions.Known := fun p hp => mem_append_right _ hp
  have hunit : ∀ pass repetition, (Stage.unit pass repetition).Known ↔ pass ∈ UnitPass.all := fun _ _ => .rfl
  constructor
  · simp [standard, new, Pipeline.Known, Pipeline.skidFuscator, Pipeline.colonial, hflow, hexceptions, hunit,
      UnitPass.all]
  · simp [standard, new, Pipeline.Known, Pipeline.general, hflow, hexceptions, hunit, UnitPass.all]

end Engine

/-! ### What comes out -/

section

variable (hu : ClassUnit.parse data = .ok u)

include hu

/-- A class that says it was not modified keeps its bytes. -/
theorem Deobfuscator.run_of_unmodified (hr : d.engine.run u {} = .ok (v, c, r)) (hm : v.isModified = false)
    (number : Nat) : ∃ out, d.run data number = .ok out ∧ out.data = data ∧ out.modified = false ∧ out.report = r := by
  unfold run
  rw [hu]
  dsimp only [bind, Except.bind, runOn]
  rw [hr]
  dsimp only
  rw [if_neg (by simp [hm])]
  exact ⟨_, rfl, rfl, hm, rfl⟩

/-- A class that says it was modified is written anew. -/
theorem Deobfuscator.run_of_modified (hr : d.engine.run u {} = .ok (v, c, r)) (hm : v.isModified = true)
    {number : Nat} {out : Deobfuscated} (h : d.run data number = .ok out) :
    v.bytes = .ok out.data ∧ out.modified = true ∧ out.report = r := by
  obtain ⟨u', hu', h⟩ := bind_eq_ok.mp h
  obtain rfl : u = u' := Except.ok.inj (hu.symm.trans hu')
  obtain ⟨x, hx, h⟩ := bind_eq_ok.mp h
  obtain rfl : (v, c, r) = x := Except.ok.inj (hr.symm.trans hx)
  dsimp only at h
  rw [if_pos hm] at h
  obtain ⟨_, hbytes, h⟩ := bind_eq_ok.mp h
  cases h
  exact ⟨hbytes, hm, rfl⟩

/-- A class that is written keeps its bytes exactly if it is written as the file that it was read from. -/
theorem ClassUnit.bytes_eq_iff {out : List UInt8} (hout : v.bytes = .ok out) :
    ∃ f, v.toFile = .ok f ∧ out = f.bytes ∧
      (f.Fits → (out = data ↔ f = u.file ∧ u.file.bytes = data)) := by
  obtain ⟨f, hf, rfl⟩ := map_eq_ok.mp hout
  refine ⟨f, hf, rfl, fun hfits => ⟨fun hsame => ?_, fun ⟨hfile, hbytes⟩ => by rw [hfile, hbytes]⟩⟩
  have hread := (f.parse_bytes_iff).mpr hfits
  rw [hsame, (asRead_of_parse hu).1] at hread
  cases hread
  exact ⟨rfl, hsame⟩

end

/-- The report tells whether anything changed. After a run over a class that was read, by any engine of
known passes, the report counts no change exactly if the class says that it was not modified. So a class
keeps its bytes if no pass counted a change, and is written anew if one did. Then it still keeps its bytes if,
and as long as what is written can be read only if, the file that is written is the one that was read. -/
theorem total_eq_zero_iff_unmodified {data : List UInt8} {u : ClassUnit} (hu : ClassUnit.parse data = .ok u)
    {e : Engine} (he : e.Known) :
    (∀ c v c' r, e.run u c = .ok (v, c', r) → (r.total = 0 ↔ v.isModified = false)) ∧
      ∀ v c r, e.run u {} = .ok (v, c, r) → ∀ graphs number,
        (r.total = 0 → ∃ out, (Deobfuscator.mk e graphs).run data number = .ok out ∧
          out.data = data ∧ out.modified = false ∧ out.report = r) ∧
        (r.total ≠ 0 → ∀ out, (Deobfuscator.mk e graphs).run data number = .ok out →
          v.bytes = .ok out.data ∧ out.modified = true ∧ out.report = r ∧
          ∃ f, v.toFile = .ok f ∧ out.data = f.bytes ∧
            (f.Fits → (out.data = data ↔ f = u.file ∧ u.file.bytes = data))) := by
  have hread := (ClassUnit.asRead_of_parse hu).2
  have htotal : ∀ c v c' r, e.run u c = .ok (v, c', r) → (r.total = 0 ↔ v.isModified = false) :=
    fun c v c' r hr => (e.run_rewritten he hread.tidy hr).honest.eq_zero_iff hread.isModified
  refine ⟨htotal, fun v c r hr graphs number => ⟨fun hzero => ?_, fun hsome out hout => ?_⟩⟩
  · exact Deobfuscator.run_of_unmodified hu hr ((htotal _ _ _ _ hr).mp hzero) number
  · have hm : v.isModified = true := by
      rw [← Bool.not_eq_false]
      exact fun hm => hsome ((htotal _ _ _ _ hr).mpr hm)
    obtain ⟨hbytes, hmodified, hreport⟩ := Deobfuscator.run_of_modified hu hr hm hout
    exact ⟨hbytes, hmodified, hreport, ClassUnit.bytes_eq_iff hu hbytes⟩

/-- A class with one method, which pushes a number, drops it and returns. -/
def poppingClass : List UInt8 :=
  [0xca, 0xfe, 0xba, 0xbe, 0, 0, 0, 52, 0, 5,
   1, 0, 1, 0x41, 7, 0, 1, 1, 0, 4, 0x43, 0x6f, 0x64, 0x65, 1, 0, 3, 0x28, 0x29, 0x56,
   0, 0x20, 0, 2, 0, 0, 0, 0, 0, 0,
   0, 1, 0, 8, 0, 1, 0, 4, 0, 1, 0, 3, 0, 0, 0, 15, 0, 1, 0, 0, 0, 0, 0, 3, 0x03, 0x57, 0xb1, 0, 0, 0, 0,
   0, 0]

/-- The standard engine counts one change to the class, which then says that it was modified and is
written anew. -/
theorem poppingClass_total :
    ∃ u v c r, ClassUnit.parse poppingClass = .ok u ∧ (Engine.standard 2).run u {} = .ok (v, c, r) ∧
      r.total = 1 ∧ v.isModified = true ∧
      ∃ out, (Deobfuscator.mk (.standard 2) false).run poppingClass 0 = .ok out ∧ v.bytes = .ok out.data := by
  have hrun : (do
      let u ← ClassUnit.parse poppingClass
      let x ← (Engine.standard 2).run u {}
      let out ← (Deobfuscator.mk (.standard 2) false).run poppingClass 0
      return (x.2.2.total, out.number)) = Except.ok (1, 0) := by decide +kernel
  obtain ⟨u, hu, hrun⟩ := bind_eq_ok.mp hrun
  obtain ⟨⟨v, c, r⟩, hr, hrun⟩ := bind_eq_ok.mp hrun
  obtain ⟨out, hout, hrun⟩ := bind_eq_ok.mp hrun
  have htotal : r.total = 1 := congrArg Prod.fst (Except.ok.inj hrun)
  obtain ⟨hiff, hwritten⟩ := total_eq_zero_iff_unmodified hu (Engine.standard_known 2)
  refine ⟨u, v, c, r, hu, hr, htotal, ?_, out, hout, ((hwritten v c r hr false 0).2 (by omega) out hout).1⟩
  rw [← Bool.not_eq_false, ← hiff {} v c r hr, htotal]
  decide

/-- The same class once it was written with its code named from another slot: its method has the old code, named
from slot 4, and after it the new code, named from slot 3. -/
def shadowedClass : List UInt8 :=
  [0xca, 0xfe, 0xba, 0xbe, 0, 0, 0, 52, 0, 6,
   1, 0, 1, 0x41, 7, 0, 1, 1, 0, 4, 0x43, 0x6f, 0x64, 0x65, 1, 0, 4, 0x43, 0x6f, 0x64, 0x65, 1, 0, 3, 0x28, 0x29, 0x56,
   0, 0, 0, 2, 0, 0, 0, 0, 0, 0,
   0, 1, 0, 0, 0, 1, 0, 5, 0, 2, 0, 4, 0, 0, 0, 15, 0, 1, 0, 0, 0, 0, 0, 3, 0x03, 0x57, 0xb1, 0, 0, 0, 0,
   0, 3, 0, 0, 0, 13, 0, 1, 0, 0, 0, 0, 0, 1, 0xb1, 0, 0, 0, 0,
   0, 0]

/-- The old code is what is read, and a change to it is counted. The new code is put in the place of the new code
that is there, so the class keeps its bytes. -/
theorem shadowedClass_keeps_bytes :
    ∃ u v c r out, ClassUnit.parse shadowedClass = .ok u ∧ (Engine.standard 2).run u {} = .ok (v, c, r) ∧
      r.total = 1 ∧ (Deobfuscator.mk (.standard 2) false).run shadowedClass 0 = .ok out ∧
      out.modified = true ∧ out.data = shadowedClass := by
  have hrun : (do
      let u ← ClassUnit.parse shadowedClass
      let x ← (Engine.standard 2).run u {}
      let out ← (Deobfuscator.mk (.standard 2) false).run shadowedClass 0
      return (x.2.2.total, out.modified, out.data)) = Except.ok (1, true, shadowedClass) := by decide +kernel
  obtain ⟨u, hu, hrun⟩ := bind_eq_ok.mp hrun
  obtain ⟨⟨v, c, r⟩, hr, hrun⟩ := bind_eq_ok.mp hrun
  obtain ⟨out, hout, hrun⟩ := bind_eq_ok.mp hrun
  obtain ⟨htotal, hmodified, hdata⟩ := by simpa using Except.ok.inj hrun
  exact ⟨u, v, c, r, out, hu, hr, htotal, hout, hmodified, hdata⟩

end Untangle
