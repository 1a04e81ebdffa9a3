import Untangle.Proofs.ClassUnit.Rewriting

/-!
# Classes as they are read

A class that was read has the records of its file, says that it was not modified, and each of its bodies
was disassembled from the code attribute of its method. Every label of such a body is one that something
refers to.
-/

namespace Untangle

open List

variable {pool : Pool} {m : Method} {u : ClassUnit} {bootstraps : List BootstrapEntry} {b : Body} {r : MemberRecord}

namespace Disassembly

/-- Only offsets that are named get a label. -/
theorem mem_number {offsets : List Nat} {o : Nat} : o ∈ number offsets ↔ o ∈ offsets := by
  induction offsets using reverseRecOn with
  | nil => simp [number]
  | append_singleton offsets o' ih =>
    have hstep : number (offsets ++ [o']) = (number offsets).insertIfNew o' (number offsets).size := by
      simp [number]
    rw [hstep, Std.TreeMap.mem_insertIfNew, ih, mem_append, mem_singleton, compare_eq_iff_eq, or_comm, eq_comm]

/-- A body that was just disassembled is tidy. -/
theorem tidy_of_disassemble {code : CodeAttribute} (h : disassemble code pool bootstraps = .ok b) : b.Tidy := by
  obtain ⟨decoded, ranges, remarks, -, hfits, rfl⟩ := fits_of_disassemble h
  refine ⟨fun n hn => (Listing.sound_ofInstrs _).intact.live hn, fun l hl => ?_⟩
  rw [labelsOf_body hfits.sane] at hl
  obtain ⟨o, -, ho⟩ := mem_filterMap.mp hl
  have hnamed : o ∈ named decoded ranges remarks.locals := by
    refine mem_number.mp (Std.TreeMap.mem_iff_isSome_getElem?.mpr ?_)
    rw [ho]
    rfl
  obtain rfl : labelOf (number (named decoded ranges remarks.locals)) o = l :=
    Option.some.inj (((numbered_number _).getElem?_eq hnamed).symm.trans ho)
  rw [Body.mem_referenced]
  simp only [named, mem_append, mem_flatMap, mem_map] at hnamed
  rcases hnamed with (⟨d, hd, t, ht, rfl⟩ | ⟨r, hr, ho⟩) | ⟨v, hv, ho⟩
  · -- the instruction that names the offset is in the body, with the label for a target
    have hreal := mem_map_of_mem
      (f := fun d => d.2.mapTargets fun t => labelOf (number (named decoded ranges remarks.locals)) t.toNat) hd
    rw [← reals_body code ranges remarks hfits.sane] at hreal
    obtain ⟨n, hn, hinstr⟩ := mem_map.mp hreal
    refine .inl (mem_targetsOf.mpr ⟨n, (mem_filter.mp hn).1, ?_⟩)
    rw [hinstr, Instruction.targets_mapTargets]
    exact mem_map_of_mem (Instruction.mem_targetsAsWritten.mp ht)
  · refine .inr (.inl ⟨_, mem_map_of_mem hr, ?_⟩)
    simp only [mem_cons, not_mem_nil, or_false] at ho
    exact ho.imp (congrArg _) (Or.imp (congrArg _) (congrArg _))
  · refine .inr (.inr ⟨_, mem_map_of_mem hv, ?_⟩)
    simp only [mem_cons, not_mem_nil, or_false] at ho
    exact ho.imp (congrArg _) (congrArg _)

end Disassembly

namespace ClassUnit

/-- A class is as it was read: it has the records of its file, and each body was disassembled from the
code attribute of its method. -/
structure AsRead (u : ClassUnit) : Prop where
  membersChanged : u.membersChanged = false
  fields : u.fields.map Field.record = u.file.fields
  methods : u.methods.map Method.record = u.file.methods
  fresh : ∀ m ∈ u.methods, m.fresh = false
  code : ∀ m ∈ u.methods, ∀ b, m.body = some b →
    ∃ a code, u.file.pool.findAttribute m.record.attributes "Code" = some a ∧
      CodeAttribute.parse a.data = .ok code ∧ disassemble code u.file.pool u.bootstraps = .ok b

theorem field_eq_ok {f : Field} (h : field pool r = .ok f) : f.record = r := by
  obtain ⟨_, -, h⟩ := bind_eq_ok.mp h
  obtain ⟨_, -, h⟩ := bind_eq_ok.mp h
  cases h
  rfl

theorem method_eq_ok (h : method pool bootstraps r = .ok m) :
    m.record = r ∧ m.fresh = false ∧ ∀ b, m.body = some b →
      ∃ a code, pool.findAttribute r.attributes "Code" = some a ∧ CodeAttribute.parse a.data = .ok code ∧
        disassemble code pool bootstraps = .ok b := by
  obtain ⟨_, -, h⟩ := bind_eq_ok.mp h
  obtain ⟨_, -, h⟩ := bind_eq_ok.mp h
  obtain ⟨body, hbody, h⟩ := bind_eq_ok.mp h
  cases h
  refine ⟨rfl, rfl, ?_⟩
  rintro b ⟨⟩
  unfold body at hbody
  split at hbody
  · cases hbody
  · rename_i a ha
    obtain ⟨code, hcode, hbody⟩ := bind_eq_ok.mp hbody
    cases hd : disassemble code pool bootstraps with
    | error e =>
      rw [hd] at hbody
      cases hbody
    | ok =>
      rw [hd] at hbody
      cases hbody
      exact ⟨a, code, ha, hcode, hd⟩

/-- What is read entry by entry keeps the entries. -/
theorem map_of_mapM {ε α β : Type} {f : α → Except ε β} {view : β → α} (hf : ∀ a b, f a = .ok b → view b = a)
    {as : List α} {bs : List β} (h : as.mapM f = .ok bs) : bs.map view = as := by
  have hall := mapM_eq_ok.mp h
  clear h
  induction hall with
  | nil => rfl
  | cons h _ ih => rw [map_cons, hf _ _ h, ih]

/-- The members of a class that was read are those of its file. -/
theorem asRead_of_members (hchanged : u.membersChanged = false)
    (hfields : u.file.fields.mapM (field u.file.pool) = .ok u.fields)
    (hmethods : u.file.methods.mapM (method u.file.pool u.bootstraps) = .ok u.methods) : u.AsRead where
  membersChanged := hchanged
  fields := map_of_mapM (fun _ _ => field_eq_ok) hfields
  methods := map_of_mapM (fun _ _ h => (method_eq_ok h).1) hmethods
  fresh := by
    intro m hm
    obtain ⟨r, -, hr⟩ := exists_of_mem_mapM hmethods hm
    exact (method_eq_ok hr).2.1
  code := by
    intro m hm b hb
    obtain ⟨r, -, hr⟩ := exists_of_mem_mapM hmethods hm
    rw [(method_eq_ok hr).1]
    exact (method_eq_ok hr).2.2 b hb

theorem asRead_of_ofFile {file : ClassFile} (h : ofFile file = .ok u) : u.file = file ∧ u.AsRead := by
  obtain ⟨_, -, h⟩ := bind_eq_ok.mp h
  dsimp only at h
  -- with a superclass or without, then with a bootstrap table or without
  split at h
  all_goals
    obtain ⟨_, -, h⟩ := bind_eq_ok.mp h
    obtain ⟨_, -, h⟩ := bind_eq_ok.mp h
    split at h
  all_goals
    obtain ⟨_, -, h⟩ := bind_eq_ok.mp h
    obtain ⟨_, hfields, h⟩ := bind_eq_ok.mp h
    obtain ⟨_, hmethods, h⟩ := bind_eq_ok.mp h
    cases h
    exact ⟨rfl, asRead_of_members rfl hfields hmethods⟩

/-- A class that was read from bytes is as its file has it. -/
theorem asRead_of_parse {data : List UInt8} (h : parse data = .ok u) :
    ClassFile.parse data = .ok u.file ∧ u.AsRead := by
  obtain ⟨_, hfile, h⟩ := bind_eq_ok.mp h
  obtain ⟨rfl, hread⟩ := asRead_of_ofFile h
  exact ⟨hfile, hread⟩

namespace AsRead

variable (h : u.AsRead)

include h

theorem body_isModified (hm : m ∈ u.methods) (hb : m.body = some b) : b.isModified = false := by
  obtain ⟨a, _, -, -, hd⟩ := h.code m hm b hb
  obtain ⟨_, _, _, -, -, rfl⟩ := Disassembly.fits_of_disassemble hd
  rfl

theorem method_isModified (hm : m ∈ u.methods) : m.isModified = false := by
  rw [Method.isModified, h.fresh m hm]
  cases hb : m.body with
  | none => rfl
  | some b => exact h.body_isModified hm hb

theorem isModified : u.isModified = false := by
  rw [ClassUnit.isModified, h.membersChanged, Bool.false_or, any_eq_false]
  intro m hm
  simp [h.method_isModified hm]

theorem tidy : u.Tidy := by
  intro m hm b hb _
  obtain ⟨a, _, -, -, hd⟩ := h.code m hm b hb
  exact Disassembly.tidy_of_disassemble hd

end AsRead

end ClassUnit

end Untangle
