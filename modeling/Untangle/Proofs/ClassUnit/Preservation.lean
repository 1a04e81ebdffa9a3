import Untangle.Proofs.ClassUnit.CodeReplacement

/-!
# What passes leave alone

A class is written with what no pass touched as it was: the constants it had come first, and its members
keep their records. What is written is read back, unless new code makes more attributes of a method than can
be counted. This can happen, because new code does not always take the place of the old.
-/

namespace Untangle

open List

variable {u v : ClassUnit} {k n : Nat} {slot : UInt16} {f : ClassFile} {a : Attribute}

/-- A pool that fits still does when constants were added, if the texts among them do. -/
theorem Pool.Fits.lengthened {p q : Pool} (hp : p.Fits) (h : p.Lengthened q)
    (htext : ∀ text, some (Constant.utf8 text) ∈ q.slots.toList → text.length ≤ 65535) : q.Fits := by
  obtain ⟨⟨cs, rfl, -⟩, hsize⟩ := hp
  obtain ⟨ds, rfl⟩ := h.exists_foldl
  refine ⟨⟨cs ++ ds, by rw [foldl_append], fun c hc => ?_⟩, h.size_le hsize⟩
  rw [← foldl_append, slots_foldl_append] at htext
  cases c with
  | utf8 text =>
    refine htext text (mem_append_right _ (mem_flatMap.mpr ⟨_, hc, ?_⟩))
    simp [filled, Constant.isWide]
  | _ => trivial

namespace ClassUnit

/-- Whether the methods can be written depends on those that get new code: one attribute is added to those
that are not under the slot, and its length has to be written. -/
theorem fitAll_iff (hu : u.AsRead) (hfits : MemberRecord.FitAll u.file.methods) (hv : u.Rewritten k v)
    (hw : v.WrittenAs slot f) :
    MemberRecord.FitAll f.methods ↔
      (∀ m ∈ v.methods, m.isModified = true → (m.record.attributes.filter (·.name != slot)).length < 65535) ∧
        ∀ r ∈ f.methods, ∀ a ∈ r.attributes, a.data.length ≤ 4294967295 := by
  constructor
  · rintro ⟨-, hall⟩
    refine ⟨fun m hm hmodified => ?_, fun r hr => (hall r hr).2⟩
    -- the record of the method fits with the new attribute in it, so it does with room to spare without
    obtain ⟨b, hb⟩ := hu.exists_body hv hm hmodified
    obtain ⟨r, hr, hrecorded⟩ := exists_of_forall₂_left hw.methods hm
    obtain ⟨_, -, -, -, -, -, rfl⟩ := hrecorded.exists_of_body hmodified hb
    have hcount := (hall _ hr).1
    simp only [replaced, length_append, length_singleton] at hcount
    omega
  · rintro ⟨hroom, hlengths⟩
    refine ⟨?_, fun r hr => ⟨?_, hlengths r hr⟩⟩
    · have hsub := (map_record_sublist hv.methods).length_le
      rw [hu.methods, length_map, hw.methods.length_eq] at hsub
      exact hsub.trans hfits.1
    · obtain ⟨m, hm, hrecorded⟩ := exists_of_forall₂_right hw.methods hr
      cases hrecorded with
      | kept => exact (hfits.2 _ (hu.record_mem hv hm)).1
      | renewed hmodified =>
        have hcount := hroom m hm hmodified
        simp only [replaced, length_append, length_singleton]
        omega

/-- A file that holds a class has everything of the file that the class was read from, apart from methods
that were modified and members that were removed. -/
structure Keeps (u v : ClassUnit) (f : ClassFile) : Prop where
  pool : u.file.pool.slots.toList <+: f.pool.slots.toList
  rest : f = { u.file with pool := f.pool, fields := f.fields, methods := f.methods }
  fields : f.fields = v.fields.map Field.record
  fieldsInOrder : f.fields.Sublist u.file.fields
  methods : List.Forall₂ (fun m r => m.isModified = false → r = m.record) v.methods f.methods
  methodsInOrder : (v.methods.map Method.record).Sublist u.file.methods
  unmodified : (v.methods.filter fun m => !m.isModified).Sublist u.methods

theorem AsRead.keeps (hu : u.AsRead) (hv : u.Rewritten k v) (hw : v.WrittenAs slot f) : u.Keeps v f := by
  have hfile := hw.file
  have hgrown := hw.grown
  rw [hv.file] at hfile hgrown
  have hfields : f.fields = v.fields.map Field.record := congrArg ClassFile.fields hfile
  refine ⟨hgrown.slots_prefix, ?_, hfields, ?_, hw.methods.imp fun m r h => h.eq_record, ?_,
    unmodified_sublist hv.methods⟩
  · rw [hfields]
    exact hfile
  · rw [hfields, ← hu.fields]
    exact hv.fields.map Field.record
  · rw [← hu.methods]
    exact map_record_sublist hv.methods

/-- What no pass touched is written as it was: the constants that there were come first and in their slots,
the fields that are left have their records, in the old order, and so do the methods that are left and were
not modified. The bytes are read back as just this file, exactly if the new code attributes can be counted
and their lengths written: a method that already had 65535 attributes has no room for another one. -/
theorem untouched_written {data : List UInt8} {u v : ClassUnit} {c c' : Context} {f : ClassFile}
    (hu : ClassUnit.parse data = .ok u) (hs : Relation.ReflTransGen Step (u, c) (v, c')) (hf : v.toFile = .ok f)
    (htext : ∀ text, some (Constant.utf8 text) ∈ f.pool.slots.toList → text.length ≤ 65535) :
    v.bytes = .ok f.bytes ∧ u.Keeps v f ∧
      ∃ slot pool, Pool.internName "Code" u.file.pool = .ok slot pool ∧
        (ClassFile.parse f.bytes = .ok f ↔
          (∀ m ∈ v.methods, m.isModified = true → (m.record.attributes.filter (·.name != slot)).length < 65535) ∧
            ∀ r ∈ f.methods, ∀ a ∈ r.attributes, a.data.length ≤ 4294967295) := by
  obtain ⟨hfile, hread⟩ := asRead_of_parse hu
  obtain ⟨k, hv⟩ := rewritten_of_steps hs hread.tidy
  obtain ⟨slot, pool, hslot, hw⟩ := writtenAs_of_toFile hf
  have hold := ClassFile.fits_of_parse hfile
  have hkeeps := hread.keeps hv hw
  have hsame : v.file = u.file := hv.file
  have hgrown := hw.grown
  rw [hsame] at hslot hgrown
  refine ⟨by rw [bytes, hf]; rfl, hkeeps, slot, pool, hslot, ?_⟩
  rw [ClassFile.parse_bytes_iff, ← fitAll_iff hread hold.methods hv hw]
  -- everything but the methods fits because it did in the file that was read
  refine ⟨fun h => h.methods, fun hmethods => ?_⟩
  have hrest := hkeeps.rest
  refine ⟨hold.pool.lengthened hgrown htext, ?_, ?_, hmethods, ?_⟩
  · rw [hrest]
    exact hold.interfaces
  · exact ⟨hkeeps.fieldsInOrder.length_le.trans hold.fields.1,
      fun r hr => hold.fields.2 r (hkeeps.fieldsInOrder.subset hr)⟩
  · rw [hrest]
    exact hold.attributes

theorem text_doubleNames {text : List UInt8} (h : some (Constant.utf8 text) ∈ doubleNames.slots.toList) :
    text.length ≤ 65535 := by
  have hslots : doubleNames.slots.toList = [none, some (.utf8 [0x41]), some (.class 1),
      some (.utf8 [0x43, 0x6f, 0x64, 0x65]), some (.utf8 [0x43, 0x6f, 0x64, 0x65]),
      some (.utf8 [0x28, 0x29, 0x56])] := rfl
  simp only [hslots, mem_cons, reduceCtorEq, Option.some.injEq, Constant.utf8.injEq, not_mem_nil,
    false_or, or_false] at h
  rcases h with rfl | rfl | rfl | rfl <;> decide

/-- A method with another attribute beside its code keeps that attribute and is read back. -/
theorem popping_read_back :
    parse (poppingFile [⟨1, [7]⟩] 4).bytes = .ok (poppingUnit [⟨1, [7]⟩] 4 poppingBody) ∧
      Relation.ReflTransGen Step (poppingUnit [⟨1, [7]⟩] 4 poppingBody, {}) (poppingUnit [⟨1, [7]⟩] 4 poppedBody, {}) ∧
      (poppingUnit [⟨1, [7]⟩] 4 poppedBody).toFile = .ok (poppedFile [⟨1, [7]⟩] 4) ∧
      (poppingUnit [⟨1, [7]⟩] 4 poppingBody).Keeps (poppingUnit [⟨1, [7]⟩] 4 poppedBody) (poppedFile [⟨1, [7]⟩] 4) ∧
      ClassFile.parse (poppedFile [⟨1, [7]⟩] 4).bytes = .ok (poppedFile [⟨1, [7]⟩] 4) := by
  have hparse : parse (poppingFile [⟨1, [7]⟩] 4).bytes = .ok (poppingUnit [⟨1, [7]⟩] 4 poppingBody) :=
    parse_popping (by simp) (.inr rfl) (by simp) (by simp [Attribute.Fits])
  obtain ⟨-, hkeeps, _, _, hslot, hiff⟩ :=
    untouched_written hparse (.single (step_popping {})) toFile_popped (fun _ => text_doubleNames)
  cases internName_doubleNames.symm.trans hslot
  refine ⟨hparse, .single (step_popping {}), toFile_popped, hkeeps, hiff.mpr ⟨?_, ?_⟩⟩
  · intro m hm _
    cases mem_singleton.mp hm
    decide +kernel
  · decide +kernel

/-- Attributes without data, but for the first. -/
def crowd (n : Nat) : List Attribute := ⟨1, [0, 0, 0, 0, 0, 0, 0]⟩ :: List.replicate n ⟨1, []⟩

theorem length_crowd (n : Nat) : (crowd n).length = n + 1 := by simp [crowd]

theorem name_crowd (h : a ∈ crowd n) : a.name = 1 := by
  have hall : ∀ a ∈ crowd n, a.name = 1 := by simp [crowd]
  exact hall a h

theorem fits_crowd (h : a ∈ crowd n) : a.Fits := by
  have hall : ∀ a ∈ crowd n, a.Fits := by simp [crowd, Attribute.Fits]
  exact hall a h

theorem length_flatMap_crowd (n : Nat) :
    ((List.replicate n (⟨1, []⟩ : Attribute)).flatMap Attribute.bytes).length = 6 * n := by
  induction n with
  | zero => rfl
  | succ n =>
    rw [replicate_succ, flatMap_cons]
    simp only [Attribute.bytes, Bytes.count32, length_append, Bytes.length_be16, Bytes.length_be32, length_nil]
    omega

/-- The first of the attributes, taken for a table, says that its only entry has 458752 bytes. -/
theorem readAll_crowd {rest : List UInt8} (h : rest.length < 450000) :
    Attribute.readAll (Attribute.bytes ⟨1, [0, 0, 0, 0, 0, 0, 0]⟩ ++ rest) = .error .endOfData := by
  have hbytes : Attribute.bytes ⟨1, [0, 0, 0, 0, 0, 0, 0]⟩ = [0, 1, 0, 0, 0, 7, 0, 0, 0, 0, 0, 0, 0] := by decide
  have hcount : (Bytes.join16 0 1).toNat = 1 := by decide
  have hlength : (Bytes.join32 0 7 0 0).toNat = 458752 := by decide
  simp only [hbytes, Attribute.readAll, Bytes.counted, bind, StateT.bind, Except.bind, cons_append,
    nil_append, Bytes.u16, hcount, Bytes.repeated, Attribute.read, Bytes.u32]
  rw [Bytes.take_eq_error (by simp only [length_cons]; omega)]

theorem length_bytes_atLeast (code : CodeAttribute) (old : Option CodeAttribute) :
    (atLeast code old).bytes.length = code.bytes.length := by
  cases old with
  | none => rfl
  | some old => simp [atLeast, CodeAttribute.bytes]

/-- One more attribute than can be counted: the count is written as zero. -/
theorem parse_crowd (hn : n = 65533) : ClassFile.parse (poppedFile (crowd n) 4).bytes = .error .endOfData := by
  have hattributes : (replaced 3 (poppingRecord (crowd n) 4) poppedCode).attributes =
      ⟨1, [0, 0, 0, 0, 0, 0, 0]⟩ :: (replicate n ⟨1, []⟩ ++
        [⟨4, poppingCode.bytes⟩, ⟨3, (atLeast poppedCode (codeIn 3 (poppingRecord (crowd n) 4))).bytes⟩]) := by
    simp only [replaced]
    simp [poppingRecord, crowd]
  refine ClassFile.parse_bytes_of_overflow fits_doubleNames (Nat.zero_le _) ⟨Nat.zero_le _, fun _ h => by cases h⟩
    rfl ?_ ?_
  · -- the attributes that were there, all kept, and the new one
    rw [hattributes, length_cons, length_append, length_replicate]
    simp only [length_cons, length_nil]
    omega
  · rw [hattributes, flatMap_cons, append_assoc]
    refine readAll_crowd ?_
    rw [flatMap_append, length_append, length_append, length_flatMap_crowd]
    have hold : poppingCode.bytes.length = 15 := rfl
    have hnew : poppedCode.bytes.length = 13 := rfl
    simp only [flatMap_cons, flatMap_nil, Attribute.bytes, Attribute.bytesAll, Bytes.count16, Bytes.count32,
      length_append, length_nil, Bytes.length_be16, Bytes.length_be32, length_bytes_atLeast, poppedFile, poppingFile]
    omega

/-- A method that has 65535 attributes and is written with another one is written with the count of none,
and what follows is not read as what it is. -/
theorem crowd_not_read_back :
    parse (poppingFile (crowd 65533) 4).bytes = .ok (poppingUnit (crowd 65533) 4 poppingBody) ∧
      Relation.ReflTransGen Step (poppingUnit (crowd 65533) 4 poppingBody, {})
        (poppingUnit (crowd 65533) 4 poppedBody, {}) ∧
      (poppingUnit (crowd 65533) 4 poppedBody).bytes = .ok (poppedFile (crowd 65533) 4).bytes ∧
      (∀ text, some (Constant.utf8 text) ∈ (poppedFile (crowd 65533) 4).pool.slots.toList → text.length ≤ 65535) ∧
      ClassFile.parse (poppedFile (crowd 65533) 4).bytes = .error .endOfData := by
  exact ⟨parse_popping (fun _ => name_crowd) (.inr rfl) (length_crowd 65533).le (fun _ => fits_crowd),
    .single (step_popping {}), by rw [bytes]; rfl, fun _ => text_doubleNames, parse_crowd rfl⟩

end ClassUnit

end Untangle
