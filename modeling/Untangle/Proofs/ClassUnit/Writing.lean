import Untangle.Proofs.ClassUnit.Reading

/-!
# Classes as they are written

Writing a class interns the name of code, then encodes the bodies that were modified, one after the other,
into the pool of the class. A method without such a body keeps its record. In the record of the others, new
code takes the place of what stands under the slot of the name.
-/

namespace Untangle

variable {b : Body} {p old new : Pool} {r : MemberRecord} {u : ClassUnit} {k : Nat} {q : Pool} {ms ms' : List Method}

/-- The limits of a body become those of its code. -/
theorem limits_of_assemble {code : CodeAttribute} (h : assemble b p = .ok code q) :
    code.maxStack = b.maxStack ∧ code.maxLocals = b.maxLocals := by
  obtain ⟨_, _, -, h⟩ := Interning.bind_eq_ok.mp h
  obtain ⟨l, _, -, h⟩ := Interning.bind_eq_ok.mp h
  split at h
  · cases h
  · obtain ⟨_, _, -, h⟩ := Interning.bind_eq_ok.mp h
    obtain ⟨_, _, -, h⟩ := Interning.bind_eq_ok.mp h
    obtain ⟨_, _, -, h⟩ := Interning.bind_eq_ok.mp h
    obtain ⟨_, _, -, h⟩ := Interning.bind_eq_ok.mp h
    obtain ⟨_, _, -, h⟩ := Interning.bind_eq_ok.mp h
    cases h
    exact ⟨rfl, rfl⟩

namespace ClassUnit

variable {m : Method} {v : ClassUnit} {slot : UInt16}

/-! ### Records -/

/-- The code that a record has under the slot of a name, if it can be read. -/
def codeIn (slot : UInt16) (r : MemberRecord) : Option CodeAttribute :=
  (r.attributes.find? (·.name == slot)).bind fun a => (CodeAttribute.parse a.data).toOption

/-- A record with new code in the place of what it has under the slot of a name. -/
def replaced (slot : UInt16) (r : MemberRecord) (code : CodeAttribute) : MemberRecord :=
  { r with attributes := r.attributes.filter (·.name != slot) ++ [⟨slot, (atLeast code (codeIn slot r)).bytes⟩] }

theorem self_le_max (a b : UInt16) : a ≤ max a b := by
  change a ≤ if a ≤ b then b else a
  split
  · assumption
  · exact UInt16.le_refl a

theorem atLeast_le (code : CodeAttribute) (old : Option CodeAttribute) :
    code.maxStack ≤ (atLeast code old).maxStack ∧ code.maxLocals ≤ (atLeast code old).maxLocals := by
  cases old with
  | none => exact ⟨UInt16.le_refl _, UInt16.le_refl _⟩
  | some old => exact ⟨self_le_max _ _, self_le_max _ _⟩

/-- How a method is recorded while the pool grows: as it was, or with its body encoded anew. -/
inductive RecordedAs (old new : Pool) (slot : UInt16) (m : Method) : MemberRecord → Prop
  | kept (h : m.isModified = true → m.body = none) : RecordedAs old new slot m m.record
  | renewed {b : Body} {code : CodeAttribute} {p q : Pool} (h : m.isModified = true) (hb : m.body = some b)
      (hp : old.Lengthened p) (hcode : assemble b p = .ok code q) (hq : q.Lengthened new) :
      RecordedAs old new slot m (replaced slot m.record code)

theorem methodRecord_of_unmodified (hm : m.isModified = true → m.body = none) (slot : UInt16) :
    methodRecord slot m = pure m.record := by
  unfold methodRecord
  split
  · rfl
  · rename_i b hb
    rw [if_neg]
    intro h
    rw [hm h] at hb
    cases hb

theorem methodRecord_of_modified (hb : m.body = some b) (hm : m.isModified = true) (slot : UInt16) :
    methodRecord slot m = do return replaced slot m.record (← assemble b) := by
  unfold methodRecord
  simp only [hb, hm]
  rfl

theorem adds_methodRecord (slot : UInt16) (m : Method) : (methodRecord slot m).Adds fun _ => True := by
  by_cases hm : m.isModified = true → m.body = none
  · rw [methodRecord_of_unmodified hm]
    exact Interning.adds_pure _
  · obtain ⟨hm, hb⟩ := Classical.not_imp.mp hm
    obtain ⟨b, hb⟩ := Option.ne_none_iff_exists'.mp hb
    rw [methodRecord_of_modified hb hm]
    exact (Assembly.adds_assemble b).bind fun _ _ _ _ => Interning.adds_pure _

theorem recordedAs_of_methodRecord (hp : old.Lengthened p) (h : methodRecord slot m p = .ok r q)
    (hq : q.Lengthened new) : RecordedAs old new slot m r := by
  by_cases hm : m.isModified = true → m.body = none
  · rw [methodRecord_of_unmodified hm] at h
    cases h
    exact .kept hm
  · obtain ⟨hm, hb⟩ := Classical.not_imp.mp hm
    obtain ⟨b, hb⟩ := Option.ne_none_iff_exists'.mp hb
    rw [methodRecord_of_modified hb hm] at h
    obtain ⟨_, _, hcode, h⟩ := Interning.bind_eq_ok.mp h
    cases h
    exact .renewed hm hb hp hcode hq

theorem RecordedAs.exists_of_body (h : RecordedAs old new slot m r) (hm : m.isModified = true) (hb : m.body = some b) :
    ∃ code p q, old.Lengthened p ∧ assemble b p = .ok code q ∧ q.Lengthened new ∧
      r = replaced slot m.record code := by
  cases h with
  | kept hnone =>
    rw [hnone hm] at hb
    cases hb
  | renewed _ hb' hp hcode hq =>
    rw [hb'] at hb
    cases hb
    exact ⟨_, _, _, hp, hcode, hq, rfl⟩

theorem RecordedAs.eq_record (h : RecordedAs old new slot m r) (hm : m.isModified = false) : r = m.record := by
  cases h with
  | kept => rfl
  | renewed h =>
    rw [hm] at h
    cases h

/-- A class and the file that it is written as, with the slot of the name of code. -/
structure WrittenAs (v : ClassUnit) (slot : UInt16) (f : ClassFile) : Prop where
  file : f = { v.file with pool := f.pool, methods := f.methods, fields := v.fields.map Field.record }
  grown : v.file.pool.Lengthened f.pool
  named : f.pool.index[(Constant.utf8 (ModifiedUtf8.encode (.ofString "Code"))).key]? = some slot
  methods : List.Forall₂ (RecordedAs v.file.pool f.pool slot) v.methods f.methods

theorem writtenAs_of_toFile {f : ClassFile} (h : v.toFile = .ok f) :
    ∃ slot p, Pool.internName "Code" v.file.pool = .ok slot p ∧ v.WrittenAs slot f := by
  unfold toFile at h
  dsimp only at h
  split at h
  · cases h
  · rename_i pool hrecords
    cases h
    obtain ⟨slot, p, hslot, hmapM⟩ := Interning.bind_eq_ok.mp hrecords
    have hp := (Pool.adds_internName (fun _ _ => trivial) "Code").lengthens _ _ _ hslot
    have hpool := (Interning.adds_mapM fun m _ => adds_methodRecord slot m).lengthens _ _ _ hmapM
    refine ⟨slot, p, hslot, rfl, hp.trans hpool, hpool.index_eq (Pool.index_of_intern hslot), ?_⟩
    refine (Interning.forall₂_of_mapM (adds_methodRecord slot) hmapM).imp ?_
    rintro m r ⟨q, _, hq, hr, hq'⟩
    exact recordedAs_of_methodRecord (hp.trans hq) hr hq'

theorem toFile_eq_ok {pool : Pool} {records : List MemberRecord}
    (hslot : Pool.internName "Code" v.file.pool = .ok slot p)
    (hrecords : v.methods.mapM (methodRecord slot) p = .ok records pool) :
    v.toFile = .ok { v.file with pool, methods := records, fields := v.fields.map Field.record } := by
  have hrun : (do
      let codeName ← Pool.internName "Code"
      v.methods.mapM (methodRecord codeName) : Interning (List MemberRecord)) v.file.pool = .ok records pool :=
    Interning.bind_eq_ok.mpr ⟨slot, p, hslot, hrecords⟩
  unfold toFile
  dsimp only
  rw [hrun]

/-! ### Classes that passes were run on -/

/-- Every method of a class that passes were run on comes from code with limits no higher than its own. -/
theorem AsRead.exists_code (hu : u.AsRead) (hv : u.Rewritten k v) (hm : m ∈ v.methods) (hb : m.body = some b) :
    ∃ a code, u.file.pool.findAttribute m.record.attributes "Code" = some a ∧
      CodeAttribute.parse a.data = .ok code ∧ code.maxStack ≤ b.maxStack ∧ code.maxLocals ≤ b.maxLocals := by
  obtain ⟨m₀, hm₀, j, hfrom⟩ := exists_comesFrom hv.methods hm
  obtain ⟨b₀, hb₀, hstack, hlocals⟩ : ∃ b₀, m₀.body = some b₀ ∧ b₀.maxStack ≤ b.maxStack ∧
      b₀.maxLocals ≤ b.maxLocals := by
    cases hfrom with
    | same => exact ⟨b, hb, UInt16.le_refl _, UInt16.le_refl _⟩
    | body hb₀ h =>
      cases hb
      exact ⟨_, hb₀, h.stack, h.locals⟩
  obtain ⟨a, code, ha, hcode, hdisassemble⟩ := hu.code m₀ hm₀ b₀ hb₀
  obtain ⟨_, _, _, -, -, rfl⟩ := Disassembly.fits_of_disassemble hdisassemble
  exact ⟨a, code, by rw [hfrom.record]; exact ha, hcode, hstack, hlocals⟩

/-- No method was added, so one that was modified has a body. -/
theorem AsRead.exists_body (hu : u.AsRead) (hv : u.Rewritten k v) (hm : m ∈ v.methods)
    (hmodified : m.isModified = true) : ∃ b, m.body = some b := by
  obtain ⟨_, hm₀, j, hfrom⟩ := exists_comesFrom hv.methods hm
  have hunmodified := hu.method_isModified hm₀
  cases hfrom with
  | same =>
    rw [hmodified] at hunmodified
    cases hunmodified
  | body => exact ⟨_, rfl⟩

theorem AsRead.record_mem (hu : u.AsRead) (hv : u.Rewritten k v) (hm : m ∈ v.methods) : m.record ∈ u.file.methods := by
  obtain ⟨_, hm₀, j, hfrom⟩ := exists_comesFrom hv.methods hm
  rw [hfrom.record, ← hu.methods]
  exact List.mem_map_of_mem hm₀

theorem unmodified_sublist (h : List.SublistForall₂ Method.ComesFrom ms' ms) :
    (ms'.filter fun m => !m.isModified).Sublist ms := by
  induction h with
  | nil => exact List.nil_sublist _
  | @cons m' m _ _ hr _ ih =>
    obtain ⟨k, hr⟩ := hr
    cases hm : m'.isModified with
    | false =>
      obtain ⟨-, rfl⟩ := hr.honest.eq_of_modified_eq_false hm
      simpa [hm] using ih
    | true =>
      simpa [hm] using ih.cons m
  | cons_right _ ih => exact ih.cons _

theorem map_record_sublist (h : List.SublistForall₂ Method.ComesFrom ms' ms) :
    (ms'.map Method.record).Sublist (ms.map Method.record) := by
  induction h with
  | nil => exact List.nil_sublist _
  | cons hr _ ih =>
    obtain ⟨k, hr⟩ := hr
    rw [List.map_cons, hr.record]
    exact ih.cons_cons _
  | cons_right _ ih => exact ih.cons _

end ClassUnit

end Untangle
