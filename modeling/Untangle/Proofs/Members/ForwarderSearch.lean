import Untangle.Members.Forwarders
import Untangle.Proofs.Results

/-!
# The search for forwarders

The search finds the methods that load their arguments, call another method of their class and return the result,
and no others. It fails just at a method that may be a forwarder and has more slots of arguments than there are.
-/

namespace Untangle

open List

/-- The method may be a forwarder, and has more slots of arguments than there are. -/
def Method.ForwardsPastLastSlot (m : Method) : Prop :=
  ∃ b d, m.body = some b ∧ (MethodDescriptor.parse m.descriptor).toOption = some d ∧
    (m.access.isPrivate && m.name.toList.head? != some '<' && b.ranges.isEmpty) = true ∧
    65535 < (if m.isStatic then 0 else 1) + d.argSlots

namespace Forwarder

variable {owner : String} {m : Method} {ms : List Method} {f g : Forwarder} {fs fs' : List Forwarder} {s : Signature}

/-- A private method loads its arguments, makes the call of a forwarder, which goes to another method of the
class with the same descriptor, and returns what the call gives. -/
inductive Forwards (owner : String) (m : Method) : Forwarder → Prop where
  | passesOn {b : Body} {d : MethodDescriptor} {loads : List Instr} {kind : InvokeKind} {target : Member}
      {isInterface : Bool} (body : m.body = some b)
      (descriptor : (MethodDescriptor.parse m.descriptor).toOption = some d)
      (candidate : (m.access.isPrivate && m.name.toList.head? != some '<' && b.ranges.isEmpty) = true)
      (loads_eq : expectedLoads m.isStatic d = .ok loads)
      (code : m.realInstrs =
        loads ++ [.invoke kind target isInterface, .leave (d.result.map FieldType.valueKind)])
      (inside : target.owner = owner) (same : target.descriptor = m.descriptor) (other : target.name ≠ m.name)
      (static : (kind == .static) = m.isStatic) :
      Forwards owner m ⟨m.signature, target.signature, .invoke kind target isInterface⟩

theorem Forwards.source (h : Forwards owner m f) : f.source = m.signature := by
  cases h
  rfl

theorem forwards?_eq_some {d : MethodDescriptor} {is : List Instr} :
    forwards? owner m d is = some f ↔ ∃ kind target isInterface,
      is = [.invoke kind target isInterface, .leave (d.result.map FieldType.valueKind)] ∧
      (target.owner = owner ∧ target.descriptor = m.descriptor ∧ target.name ≠ m.name ∧
        (kind == .static) = m.isStatic) ∧
      f = ⟨m.signature, target.signature, .invoke kind target isInterface⟩ := by
  constructor
  · intro h
    unfold forwards? at h
    split at h
    · split at h
      · rename_i hall
        obtain ⟨howner, hsame, hother, hstatic, rfl⟩ := hall
        cases h
        exact ⟨_, _, _, rfl, ⟨howner, hsame, hother, hstatic⟩, rfl⟩
      · cases h
    · cases h
  · rintro ⟨kind, target, isInterface, rfl, ⟨howner, hsame, hother, hstatic⟩, rfl⟩
    rw [forwards?, if_pos ⟨howner, hsame, hother, hstatic, rfl⟩]

/-- A method is taken for the forwarder that it is. -/
theorem of?_eq_some : of? owner m = .ok (some f) ↔ Forwards owner m f := by
  constructor
  · intro h
    unfold of? at h
    simp only [bind, Except.bind] at h
    split at h
    case h_2 => cases h
    rename_i b hb
    split at h
    case h_2 => cases h
    rename_i d hd
    split at h
    case isFalse => cases h
    rename_i hcandidate
    split at h
    case h_1 => cases h
    rename_i loads hloads
    split at h
    case isFalse => cases h
    rename_i htake
    obtain ⟨kind, target, isInterface, hdrop, ⟨howner, hsame, hother, hstatic⟩, rfl⟩ :=
      forwards?_eq_some.mp (Except.ok.inj h)
    refine .passesOn hb hd hcandidate hloads ?_ howner hsame hother hstatic
    have hcode := take_append_drop loads.length m.realInstrs
    rw [htake, hdrop] at hcode
    exact hcode.symm
  · rintro ⟨hb, hd, hcandidate, hloads, hcode, howner, hsame, hother, hstatic⟩
    rename_i b d loads kind target isInterface
    have hforwards : forwards? owner m d (m.realInstrs.drop loads.length) =
        some ⟨m.signature, target.signature, .invoke kind target isInterface⟩ :=
      forwards?_eq_some.mpr ⟨kind, target, isInterface, by rw [hcode, drop_left],
        ⟨howner, hsame, hother, hstatic⟩, rfl⟩
    have htake : m.realInstrs.take loads.length = loads := by rw [hcode, take_left]
    simp [of?, hb, hd, hcandidate, hloads, hforwards, htake, bind, Except.bind, pure, Except.pure]

/-- One of the forwarders is for this signature. -/
def Covers (fs : List Forwarder) (s : Signature) : Prop := ∃ f ∈ fs, f.source = s

theorem covers_add : Covers (add fs f) s ↔ f.source = s ∨ Covers fs s := by
  constructor
  · rintro ⟨g, hg, rfl⟩
    rcases mem_cons.mp hg with rfl | hg
    · exact .inl rfl
    · exact .inr ⟨g, (mem_filter.mp hg).1, rfl⟩
  · rintro (rfl | ⟨g, hg, rfl⟩)
    · exact ⟨f, mem_cons_self, rfl⟩
    · by_cases hsame : g.source = f.source
      · exact ⟨f, mem_cons_self, hsame.symm⟩
      · exact ⟨g, mem_cons_of_mem _ (mem_filter.mpr ⟨hg, by simpa using hsame⟩), rfl⟩

/-- What is found among methods is what methods forward to, and none of the methods is missed. -/
theorem collect_spec (h : collect owner fs ms = .ok fs') :
    (∀ f ∈ fs', f ∈ fs ∨ ∃ m ∈ ms, Forwards owner m f) ∧
      (∀ s, Covers fs s → Covers fs' s) ∧ ∀ m ∈ ms, ∀ f, Forwards owner m f → Covers fs' m.signature := by
  induction ms generalizing fs with
  | nil =>
    cases h
    exact ⟨fun f hf => .inl hf, fun s hs => hs, fun m hm => nomatch hm⟩
  | cons m ms ih =>
    obtain ⟨found, hfound, h⟩ := bind_eq_ok.mp h
    cases found with
    | none =>
      obtain ⟨hfrom, hkept, hall⟩ := ih h
      refine ⟨fun f hf => (hfrom f hf).imp_right fun ⟨m', hm', hf'⟩ => ⟨m', mem_cons_of_mem _ hm', hf'⟩,
        hkept, fun m' hm' f hf => ?_⟩
      rcases mem_cons.mp hm' with rfl | hm'
      · rw [of?_eq_some.mpr hf] at hfound
        cases hfound
      · exact hall m' hm' f hf
    | some g =>
      obtain ⟨hfrom, hkept, hall⟩ := ih h
      have hg := of?_eq_some.mp hfound
      refine ⟨fun f hf => ?_, fun s hs => hkept s (covers_add.mpr (.inr hs)), fun m' hm' f hf => ?_⟩
      · rcases hfrom f hf with hf | ⟨m', hm', hf'⟩
        · rcases mem_cons.mp hf with rfl | hf
          · exact .inr ⟨m, mem_cons_self, hg⟩
          · exact .inl (mem_filter.mp hf).1
        · exact .inr ⟨m', mem_cons_of_mem _ hm', hf'⟩
      · rcases mem_cons.mp hm' with rfl | hm'
        · exact hkept _ (covers_add.mpr (.inl hg.source))
        · exact hall m' hm' f hf

/-! ### Failure -/

theorem expectedLoads_eq_error {isStatic : Bool} {d : MethodDescriptor} {e : Error} :
    expectedLoads isStatic d = .error e ↔
      e = .slotOverflow ∧ 65535 < (if isStatic then 0 else 1) + d.argSlots := by
  unfold expectedLoads
  by_cases hslots : (if isStatic = true then 0 else 1) + d.argSlots ≤ 65535
  · rw [if_pos hslots]
    exact ⟨fun h => (by cases h), fun h => absurd h.2 (by omega)⟩
  · rw [if_neg hslots]
    exact ⟨fun h => (by cases h; exact ⟨rfl, by omega⟩), fun h => (by rw [h.1])⟩

theorem of?_eq_error {e : Error} : of? owner m = .error e ↔ e = .slotOverflow ∧ m.ForwardsPastLastSlot := by
  constructor
  · intro h
    unfold of? at h
    simp only [bind, Except.bind] at h
    split at h
    case h_2 => cases h
    rename_i b hb
    split at h
    case h_2 => cases h
    rename_i d hd
    split at h
    case isFalse => cases h
    rename_i hmay
    split at h
    · rename_i hloads
      cases h
      obtain ⟨he, hslots⟩ := expectedLoads_eq_error.mp hloads
      exact ⟨he, b, d, hb, hd, hmay, hslots⟩
    · cases h
  · rintro ⟨rfl, b, d, hb, hd, hmay, hslots⟩
    simp only [of?, hb, hd, hmay, expectedLoads_eq_error.mpr ⟨rfl, hslots⟩]
    rfl

theorem collect_eq_error {e : Error} :
    collect owner fs ms = .error e ↔ e = .slotOverflow ∧ ∃ m ∈ ms, m.ForwardsPastLastSlot := by
  induction ms generalizing fs with
  | nil => exact ⟨fun h => (by cases h), fun ⟨_, _, hm, _⟩ => (by cases hm)⟩
  | cons m ms ih =>
    simp only [collect, bind, Except.bind]
    cases hof : of? owner m with
    | error =>
      obtain ⟨rfl, hm⟩ := of?_eq_error.mp hof
      exact ⟨fun h => (by cases h; exact ⟨rfl, m, by simp, hm⟩), fun h => (by rw [h.1])⟩
    | ok found =>
      have hno : ¬ m.ForwardsPastLastSlot := by
        intro hm
        rw [of?_eq_error.mpr ⟨rfl, hm⟩] at hof
        cases hof
      cases found <;> simp [ih, hno]

/-- Looking for forwarders fails at a method that may be one but has more slots of arguments than there
are. -/
theorem run_eq_error {u : ClassUnit} {e : Error} :
    run u = .error e ↔ e = .slotOverflow ∧ ∃ m ∈ u.methods, m.ForwardsPastLastSlot := by
  refine Iff.trans ?_ (@collect_eq_error u.name u.methods [] e)
  unfold run
  cases collect u.name [] u.methods with
  | error => exact ⟨fun h => (by cases h; rfl), fun h => (by cases h; rfl)⟩
  | ok => exact ⟨fun h => (by cases h), fun h => (by cases h)⟩

end Forwarder

end Untangle
