import Untangle.Proofs.ClassFile.RoundTrip
import Untangle.Proofs.ClassUnit.Writing

/-!
# New code for a method

Reading finds code by the name of its attribute, writing by the slot of that name. The slot is the one that
interning gives out, so an attribute that has its name from another slot stays beside the new one. Then the
method has two code attributes, of which the old one is found first.
-/

namespace Untangle

open List

variable {p q : Pool} {slot : UInt16} {text : String} {old new : Pool} {b : Body} {code : CodeAttribute}

namespace Pool

/-- The attributes with a name. One whose name cannot be read is left out. -/
def attributesNamed (p : Pool) (name : String) (as : List Attribute) : List Attribute :=
  as.filter fun a => (p.name a.name).toOption == some name

theorem findAttribute_eq_head? (p : Pool) (as : List Attribute) (name : String) :
    p.findAttribute as name = (p.attributesNamed name as).head? := by
  rw [findAttribute, attributesNamed, head?_filter]
  congr 1
  funext a
  cases p.name a.name <;> rfl

/-- The attributes that have a name in the larger pool had it before, those in its slot apart. -/
theorem Lengthened.attributesNamed_eq (h : p.Lengthened q) (htext : '�' ∉ text.toList)
    (hslot : q.index[(Constant.utf8 (ModifiedUtf8.encode (.ofString text))).key]? = some slot) (as : List Attribute) :
    q.attributesNamed text (as.filter (·.name != slot)) = (p.attributesNamed text as).filter (·.name != slot) := by
  rw [attributesNamed, attributesNamed, filter_filter, filter_filter]
  refine filter_congr fun a _ => ?_
  by_cases ha : a.name = slot
  · simp [ha]
  · have hname := h.name_eq_ok_iff htext hslot ha
    have hfound : ∀ r : Pool, ((r.name a.name).toOption == some text) = true ↔ r.name a.name = .ok text := by
      intro r
      cases r.name a.name <;> simp [Except.toOption]
    rw [Bool.eq_iff_iff, Bool.and_eq_true, Bool.and_eq_true, hfound, hfound, hname, and_comm]

/-- The name in the slot that the index has for it. -/
theorem Sound.name_eq_ok (h : p.Sound)
    (hslot : p.index[(Constant.utf8 (ModifiedUtf8.encode (.ofString text))).key]? = some slot) :
    p.name slot = .ok text := by
  rw [name, utf8, get_eq_ok.mpr (h.indexed _ _ hslot)]
  change (do return (← ModifiedUtf8.decode (ModifiedUtf8.encode (.ofString text))).lossy) = Except.ok text
  rw [ModifiedUtf8.decode_encode]
  exact congrArg Except.ok (Utf16.lossy_ofString text)

end Pool

namespace ClassUnit

/-- The code attribute of a body: what it is encoded as while the class is written, with limits that are no
lower. -/
def Encodes (old new : Pool) (b : Body) (code : CodeAttribute) : Prop :=
  ∃ p q encoded, old.Lengthened p ∧ assemble b p = .ok encoded q ∧ q.Lengthened new ∧
    encoded.maxStack ≤ code.maxStack ∧ encoded.maxLocals ≤ code.maxLocals ∧
    code = { encoded with maxStack := code.maxStack, maxLocals := code.maxLocals }

theorem atLeast_eq (code : CodeAttribute) (old : Option CodeAttribute) :
    atLeast code old =
      { code with maxStack := (atLeast code old).maxStack, maxLocals := (atLeast code old).maxLocals } := by
  cases old <;> rfl

theorem encodes_of_assemble (hp : old.Lengthened p) (h : assemble b p = .ok code q) (hq : q.Lengthened new)
    (replacing : Option CodeAttribute) : Encodes old new b (atLeast code replacing) :=
  ⟨p, q, code, hp, h, hq, (atLeast_le code replacing).1, (atLeast_le code replacing).2, atLeast_eq code replacing⟩

/-- The limits of a body's code are no lower than those of the body. -/
theorem Encodes.limits (h : Encodes old new b code) : b.maxStack ≤ code.maxStack ∧ b.maxLocals ≤ code.maxLocals := by
  obtain ⟨p, q, _, -, hencoded, -, hstack, hlocals, -⟩ := h
  obtain ⟨hs, hl⟩ := limits_of_assemble hencoded
  exact ⟨hs ▸ hstack, hl ▸ hlocals⟩

/-- Of the attributes with the name of code, those outside the slot stay, before the new one. -/
theorem attributesNamed_replaced (hq : q.Sound) (h : p.Lengthened q)
    (hslot : q.index[(Constant.utf8 (ModifiedUtf8.encode (.ofString "Code"))).key]? = some slot)
    (r : MemberRecord) (code : CodeAttribute) :
    q.attributesNamed "Code" (replaced slot r code).attributes =
      (p.attributesNamed "Code" r.attributes).filter (·.name != slot) ++
        [⟨slot, (atLeast code (codeIn slot r)).bytes⟩] := by
  rw [← h.attributesNamed_eq (by decide) hslot, replaced, Pool.attributesNamed, filter_append]
  congr 1
  simp [hq.name_eq_ok hslot, Except.toOption]

theorem eq_singleton_of_head? {α : Type} {as : List α} {a : α} (h : as.head? = some a) (hlength : as.length ≤ 1) :
    as = [a] := by
  match as, h, hlength with
  | [_], rfl, _ => rfl

/-- A method that was modified is written with its body as its only code, if the code that it was read from
has its name from the slot that writing gives to it. Otherwise it is written with both, and the old code
comes first. The limits of the new code are no lower than those of the old code in either case. -/
theorem modified_method_written {data out : List UInt8} {u v : ClassUnit} {c c' : Context}
    (hu : ClassUnit.parse data = .ok u)
    (hone : ∀ r ∈ u.file.methods, (u.file.pool.attributesNamed "Code" r.attributes).length ≤ 1)
    (hs : Relation.ReflTransGen Step (u, c) (v, c')) (hout : v.bytes = .ok out) :
    ∃ f slot pool, v.toFile = .ok f ∧ out = f.bytes ∧ Pool.internName "Code" u.file.pool = .ok slot pool ∧
      List.Forall₂ (fun m r => m.isModified = true → ∃ b old code new, m.body = some b ∧
        u.file.pool.attributesNamed "Code" m.record.attributes = [old] ∧
        CodeAttribute.parse old.data = .ok code ∧ Encodes u.file.pool f.pool b new ∧
        code.maxStack ≤ new.maxStack ∧ code.maxLocals ≤ new.maxLocals ∧
        f.pool.attributesNamed "Code" r.attributes =
          if old.name = slot then [⟨slot, new.bytes⟩] else [old, ⟨slot, new.bytes⟩]) v.methods f.methods := by
  obtain ⟨hfile, hread⟩ := asRead_of_parse hu
  obtain ⟨k, hv⟩ := rewritten_of_steps hs hread.tidy
  obtain ⟨f, hf, rfl⟩ := map_eq_ok.mp hout
  obtain ⟨slot, pool, hslot, hw⟩ := writtenAs_of_toFile hf
  have hgrown := hw.grown
  have hmethods := hw.methods
  have hsame : v.file = u.file := hv.file
  rw [hsame] at hslot hgrown hmethods
  refine ⟨f, slot, pool, hf, rfl, hslot, ?_⟩
  refine ((forall₂_and_left _ _).mpr ⟨fun m hm => hm, hmethods⟩).imp ?_
  rintro m r ⟨hm, hr⟩ hmodified
  obtain ⟨b, hb⟩ := hread.exists_body hv hm hmodified
  obtain ⟨old, code, hold, hcode, hstack, hlocals⟩ := hread.exists_code hv hm hb
  have honly : u.file.pool.attributesNamed "Code" m.record.attributes = [old] := by
    rw [Pool.findAttribute_eq_head?] at hold
    exact eq_singleton_of_head? hold (hone _ (hread.record_mem hv hm))
  obtain ⟨_, p, q, hp, hencoded, hq, rfl⟩ := hr.exists_of_body hmodified hb
  have hnew := encodes_of_assemble hp hencoded hq (codeIn slot m.record)
  refine ⟨b, old, code, _, hb, honly, hcode, hnew, UInt16.le_trans hstack hnew.limits.1,
    UInt16.le_trans hlocals hnew.limits.2, ?_⟩
  -- the slot takes out the one attribute that has the name, or none of those that have it
  rw [attributesNamed_replaced (hgrown.sound (ClassFile.fits_of_parse hfile).pool.sound) hgrown hw.named, honly]
  by_cases hname : old.name = slot
  · simp [hname]
  · simp [hname]

/-! ### A class with one method -/

/-- Pushes a number, drops it and returns. -/
def poppingBody : Body where
  maxStack := 1
  maxLocals := 0
  code := .ofInstrs [.push (.int 0), .stack .pop, .leave none]

/-- The same after a pass took out what has no effect. -/
def poppedBody : Body := poppingBody.removePops.2

/-- The code of the one body. -/
def poppingCode : CodeAttribute := ⟨1, 0, [0x03, 0x57, 0xb1], [], []⟩

/-- The code of the other body. -/
def poppedCode : CodeAttribute := ⟨1, 0, [0xb1], [], []⟩

/-- Constants among which the name of code is twice, in slots 3 and 4. -/
def doubleNames : Pool :=
  [.utf8 [0x41], .class 1, .utf8 [0x43, 0x6f, 0x64, 0x65], .utf8 [0x43, 0x6f, 0x64, 0x65],
    .utf8 [0x28, 0x29, 0x56]].foldl Pool.append .empty

/-- A method whose code is named from a slot and comes after other attributes. -/
def poppingRecord (others : List Attribute) (slot : UInt16) : MemberRecord :=
  ⟨0, 1, 5, others ++ [⟨slot, poppingCode.bytes⟩]⟩

/-- That method, with one of the bodies. -/
def poppingMethod (others : List Attribute) (slot : UInt16) (b : Body) : Method where
  access := .ofBits 0
  name := "A"
  descriptor := "()V"
  body := some b
  record := poppingRecord others slot
  fresh := false

/-- A class file with that method only. -/
def poppingFile (others : List Attribute) (slot : UInt16) : ClassFile where
  minor := 0
  major := 52
  pool := doubleNames
  access := 0
  thisClass := 2
  superClass := 0
  interfaces := []
  fields := []
  methods := [poppingRecord others slot]
  attributes := []

/-- The class that is read from the file, with one of the bodies. -/
def poppingUnit (others : List Attribute) (slot : UInt16) (b : Body) : ClassUnit where
  name := "A"
  superName := none
  access := .ofBits 0
  interfaces := []
  fields := []
  methods := [poppingMethod others slot b]
  file := poppingFile others slot
  bootstraps := []
  membersChanged := false

/-- The file that the class is written as after the pass. -/
def poppedFile (others : List Attribute) (slot : UInt16) : ClassFile :=
  { poppingFile others slot with methods := [replaced 3 (poppingRecord others slot) poppedCode] }

theorem modified_popped (others : List Attribute) (slot : UInt16) :
    (poppingMethod others slot poppedBody).isModified = true := rfl

theorem fits_doubleNames : doubleNames.Fits :=
  ⟨⟨_, rfl, by simp [Constant.Fits]⟩, by decide⟩

theorem internName_doubleNames : Pool.internName "Code" doubleNames = .ok 3 doubleNames := by
  have hindex : doubleNames.index[(Constant.utf8 (ModifiedUtf8.encode (.ofString "Code"))).key]? = some 3 := by
    rfl
  simp [Pool.internName, Pool.internUtf8, Pool.intern, hindex]

section Popping

variable {others : List Attribute} (hothers : ∀ a ∈ others, a.name = 1) (hslot : slot = 3 ∨ slot = 4)

include hothers hslot

theorem attributesNamed_popping :
    doubleNames.attributesNamed "Code" (poppingRecord others slot).attributes = [⟨slot, poppingCode.bytes⟩] := by
  have hnone : doubleNames.attributesNamed "Code" others = [] := by
    refine filter_eq_nil_iff.mpr fun a ha => ?_
    rw [hothers a ha]
    decide
  rw [poppingRecord, Pool.attributesNamed, filter_append, ← Pool.attributesNamed, hnone]
  rcases hslot with rfl | rfl <;> rfl

theorem ofFile_popping : ofFile (poppingFile others slot) = .ok (poppingUnit others slot poppingBody) := by
  have hmethod : method doubleNames [] (poppingRecord others slot) = .ok (poppingMethod others slot poppingBody) := by
    have hfound := doubleNames.findAttribute_eq_head? (poppingRecord others slot).attributes "Code"
    rw [attributesNamed_popping hothers hslot] at hfound
    simp only [method, body, hfound]
    rfl
  simp only [ofFile, poppingFile, bind, Except.bind, pure, Except.pure, mapM_cons, hmethod]
  rfl

omit hothers hslot in
theorem fits_popping (hcount : others.length ≤ 65534) (hfits : ∀ a ∈ others, a.Fits) :
    (poppingFile others slot).Fits := by
  refine ⟨fits_doubleNames, Nat.zero_le _, ⟨Nat.zero_le _, fun _ h => by cases h⟩, ⟨show 1 ≤ 65535 by decide, ?_⟩,
    ⟨Nat.zero_le _, fun _ h => by cases h⟩⟩
  intro r hr
  cases mem_singleton.mp hr
  refine ⟨?_, fun a ha => ?_⟩
  · rw [poppingRecord, length_append, length_singleton]
    omega
  rcases mem_append.mp ha with ha | ha
  · exact hfits a ha
  · cases mem_singleton.mp ha
    exact show 15 ≤ 4294967295 by decide

/-- The class is read from the bytes of its file, if the other attributes leave room for the code. -/
theorem parse_popping (hcount : others.length ≤ 65534) (hfits : ∀ a ∈ others, a.Fits) :
    parse (poppingFile others slot).bytes = .ok (poppingUnit others slot poppingBody) := by
  rw [parse, (ClassFile.parse_bytes_iff _).mpr (fits_popping hcount hfits)]
  exact ofFile_popping hothers hslot

omit hothers hslot in
theorem step_popping (c : Context) :
    Step (poppingUnit others slot poppingBody, c) (poppingUnit others slot poppedBody, c) := by
  have hpass : MethodPass.pushPop ∈ MethodPass.all := by simp [MethodPass.all, MethodPass.flowSimplification]
  have hmethods : (poppingUnit others slot poppingBody).methods =
      [] ++ poppingMethod others slot poppingBody :: [] := rfl
  have hrun : MethodPass.pushPop.run poppingBody = .ok (poppingBody.removePops.1, poppedBody) := rfl
  exact .overBody hpass hmethods rfl hrun

omit hothers hslot in
theorem toFile_popped : (poppingUnit others slot poppedBody).toFile = .ok (poppedFile others slot) := by
  refine toFile_eq_ok internName_doubleNames (Interning.bind_eq_ok.mpr ⟨_, doubleNames, ?_, rfl⟩)
  exact Interning.bind_eq_ok.mpr ⟨_, doubleNames, rfl, rfl⟩

end Popping

theorem one_code_popping (hothers : ∀ a ∈ others, a.name = 1) (hslot : slot = 3 ∨ slot = 4) :
    ∀ r ∈ (poppingFile others slot).methods, (doubleNames.attributesNamed "Code" r.attributes).length ≤ 1 := by
  intro r hr
  cases mem_singleton.mp hr
  rw [attributesNamed_popping hothers hslot]
  exact le_refl 1

/-- Code that has its name from the slot that writing gives to it is replaced. -/
theorem popping_written_once :
    parse (poppingFile [] 3).bytes = .ok (poppingUnit [] 3 poppingBody) ∧
      Relation.ReflTransGen Step (poppingUnit [] 3 poppingBody, {}) (poppingUnit [] 3 poppedBody, {}) ∧
      (poppingUnit [] 3 poppedBody).bytes = .ok (poppedFile [] 3).bytes ∧
      ∃ r new, (poppedFile [] 3).methods = [r] ∧ Encodes doubleNames doubleNames poppedBody new ∧
        doubleNames.attributesNamed "Code" r.attributes = [⟨3, new.bytes⟩] := by
  have hparse : parse (poppingFile [] 3).bytes = .ok (poppingUnit [] 3 poppingBody) :=
    parse_popping (by simp) (.inl rfl) (by simp) (by simp)
  have hbytes : (poppingUnit [] 3 poppedBody).bytes = .ok (poppedFile [] 3).bytes := by rw [bytes]; rfl
  obtain ⟨f, _, _, hf, -, hslot, hmethods⟩ :=
    modified_method_written hparse (one_code_popping (by simp) (.inl rfl)) (.single (step_popping {})) hbytes
  cases toFile_popped.symm.trans hf
  cases internName_doubleNames.symm.trans hslot
  obtain ⟨hmethod, -⟩ := forall₂_cons.mp hmethods
  obtain ⟨b, _, _, new, hb, hold, -, hnew, -, -, hnamed⟩ := hmethod (modified_popped [] 3)
  cases hb
  cases (attributesNamed_popping (by simp) (.inl rfl)).symm.trans hold
  exact ⟨hparse, .single (step_popping {}), hbytes, _, new, rfl, hnew, hnamed⟩

/-- Code that has its name from another slot stays, so that the method is written with two code attributes,
and the old one is found first. -/
theorem popping_written_twice :
    parse (poppingFile [] 4).bytes = .ok (poppingUnit [] 4 poppingBody) ∧
      (∀ r ∈ (poppingFile [] 4).methods, (doubleNames.attributesNamed "Code" r.attributes).length ≤ 1) ∧
      Relation.ReflTransGen Step (poppingUnit [] 4 poppingBody, {}) (poppingUnit [] 4 poppedBody, {}) ∧
      (poppingUnit [] 4 poppedBody).bytes = .ok (poppedFile [] 4).bytes ∧
      (∀ m ∈ (poppingUnit [] 4 poppedBody).methods, m.isModified = true) ∧
      ∃ r, (poppedFile [] 4).methods = [r] ∧ (doubleNames.attributesNamed "Code" r.attributes).length = 2 ∧
        doubleNames.findAttribute r.attributes "Code" = (poppingRecord [] 4).attributes.head? := by
  refine ⟨parse_popping (by simp) (.inr rfl) (by simp) (by simp), one_code_popping (by simp) (.inr rfl),
    .single (step_popping {}), by rw [bytes]; rfl, ?_, _, rfl, by decide +kernel, by decide +kernel⟩
  intro m hm
  cases mem_singleton.mp hm
  exact modified_popped [] 4

end ClassUnit

end Untangle
