import Untangle.Proofs.Pool.Format

/-!
# Class files come back from their bytes

Counts are written in sixteen bits and lengths in thirty-two, whatever they are. A class file whose counts
and lengths are no larger than that is read back from its bytes as it was, and a class file that was read
is always of that kind. A count that wraps to zero leaves what it counts to whatever is read next.
-/

namespace Untangle

open Bytes List

variable {m : MemberRecord} {data : List UInt8}

/-! ### Attributes -/

namespace Attribute

/-- The length of the attribute can be written. -/
def Fits (a : Attribute) : Prop := a.data.length ≤ 4294967295

theorem read_bytes {a : Attribute} (h : a.Fits) (rest : List UInt8) : read (a.bytes ++ rest) = .ok (a, rest) := by
  simp only [read, bytes, count32, bind, StateT.bind, Except.bind, append_assoc, u16_be16, u32_be32,
    toNat_ofNat32 h, Bytes.take_append]
  rfl

theorem form : Form read bytes Fits := by
  have hread : ∀ s a rest, read s = .ok (a, rest) → a.Fits ∧ s = a.bytes ++ rest := by
    intro s a rest h
    obtain ⟨⟨_, _⟩, hname, h⟩ := bind_eq_ok.mp h
    obtain ⟨⟨length, _⟩, hlength, h⟩ := bind_eq_ok.mp h
    obtain ⟨⟨_, _⟩, hdata, h⟩ := bind_eq_ok.mp h
    cases h
    have hlt := length.toNat_lt
    rw [Fits, exact_u16 _ _ _ hname, exact_u32 _ _ _ hlength, exact_take _ _ _ _ hdata, bytes, count32,
      length_of_take hdata]
    exact ⟨by omega, by simp⟩
  exact .of_read (fun _ h => read_bytes h) hread

/-- The attributes can be counted, and their lengths written. -/
def FitAll (as : List Attribute) : Prop := as.length ≤ 65535 ∧ ∀ a ∈ as, a.Fits

theorem formAll : Form readAll bytesAll FitAll := form.counted

end Attribute

/-! ### Members -/

namespace MemberRecord

/-- The attributes of the member can be written. -/
def Fits (m : MemberRecord) : Prop := Attribute.FitAll m.attributes

theorem read_bytes (h : m.Fits) (rest : List UInt8) : read (m.bytes ++ rest) = .ok (m, rest) := by
  simp only [read, bytes, bind, StateT.bind, Except.bind, append_assoc, u16_be16, Attribute.formAll.back m.attributes h]
  rfl

/-- A count of attributes that wraps to zero leaves them to whatever is read next. -/
theorem read_bytes_of_overflow (h : m.attributes.length % 65536 = 0) (rest : List UInt8) :
    read (m.bytes ++ rest) = .ok ({ m with attributes := [] }, m.attributes.flatMap Attribute.bytes ++ rest) := by
  have hcount : (UInt16.ofNat m.attributes.length).toNat = 0 := by rw [UInt16.toNat_ofNat']; exact h
  simp only [read, bytes, Attribute.readAll, Attribute.bytesAll, counted, count16, bind, StateT.bind, Except.bind,
    append_assoc, u16_be16, hcount]
  rfl

theorem form : Form read bytes Fits := by
  have hread : ∀ s m rest, read s = .ok (m, rest) → m.Fits ∧ s = m.bytes ++ rest := by
    intro s m rest h
    obtain ⟨⟨_, _⟩, haccess, h⟩ := bind_eq_ok.mp h
    obtain ⟨⟨_, _⟩, hname, h⟩ := bind_eq_ok.mp h
    obtain ⟨⟨_, _⟩, hdescriptor, h⟩ := bind_eq_ok.mp h
    obtain ⟨⟨_, _⟩, hattributes, h⟩ := bind_eq_ok.mp h
    cases h
    refine ⟨Attribute.formAll.fits _ _ _ hattributes, ?_⟩
    rw [exact_u16 _ _ _ haccess, exact_u16 _ _ _ hname, exact_u16 _ _ _ hdescriptor,
      Attribute.formAll.exact _ _ _ hattributes, bytes]
    simp
  exact .of_read (fun _ h => read_bytes h) hread

/-- The members can be counted, and their attributes written. -/
def FitAll (ms : List MemberRecord) : Prop := ms.length ≤ 65535 ∧ ∀ m ∈ ms, m.Fits

theorem formAll : Form readAll bytesAll FitAll := form.counted

end MemberRecord

/-! ### Class files -/

namespace ClassFile

variable {c : ClassFile}

/-- All that the class file counts can be counted. -/
structure Fits (c : ClassFile) : Prop where
  pool : c.pool.Fits
  interfaces : c.interfaces.length ≤ 65535
  fields : MemberRecord.FitAll c.fields
  methods : MemberRecord.FitAll c.methods
  attributes : Attribute.FitAll c.attributes

/-- All is read back up to the methods. -/
theorem read_up_to_methods (hpool : c.pool.Fits) (hinterfaces : c.interfaces.length ≤ 65535)
    (hfields : MemberRecord.FitAll c.fields) (rest : List UInt8) :
    read (c.bytes ++ rest) = (do
      let methods ← MemberRecord.readAll
      let attributes ← Attribute.readAll
      return { c with methods, attributes } : Reader ClassFile)
        (MemberRecord.bytesAll c.methods ++ (Attribute.bytesAll c.attributes ++ rest)) := by
  have hnames := fun rest => form_u16.counted.back c.interfaces ⟨hinterfaces, fun _ _ => trivial⟩ rest
  simp only [append_assoc] at hnames
  simp [read, bytes, bind, StateT.bind, Except.bind, Pool.read_bytes hpool, hnames, MemberRecord.formAll.back _ hfields]

theorem read_bytes (h : c.Fits) (rest : List UInt8) : read (c.bytes ++ rest) = .ok (c, rest) := by
  rw [read_up_to_methods h.pool h.interfaces h.fields]
  simp only [bind, StateT.bind, Except.bind, MemberRecord.formAll.back _ h.methods,
    Attribute.formAll.back _ h.attributes]
  rfl

/-- A class file that is read fits, and it is read from its bytes but for the count of its slots. -/
theorem of_read {rest : List UInt8} (h : read data = .ok (c, rest)) :
    c.Fits ∧ ∃ (front back : List UInt8) (count : UInt16), front.length = 8 ∧
      data = front ++ (be16 count ++ (back ++ rest)) ∧ c.bytes = front ++ (count16 c.pool.size ++ back) ∧
      (count.toNat = c.pool.size ↔ count.toNat ≠ 0 ∧ ¬ c.pool.WideAt (count.toNat - 1)) := by
  obtain ⟨⟨found, _⟩, hfound, h⟩ := bind_eq_ok.mp h
  dsimp only at h
  split at h
  · cases h
  · rename_i hmagic
    obtain ⟨⟨minor, _⟩, hminor, h⟩ := bind_eq_ok.mp h
    obtain ⟨⟨major, _⟩, hmajor, h⟩ := bind_eq_ok.mp h
    obtain ⟨⟨pool, _⟩, hpool, h⟩ := bind_eq_ok.mp h
    obtain ⟨⟨access, _⟩, haccess, h⟩ := bind_eq_ok.mp h
    obtain ⟨⟨thisClass, _⟩, hthis, h⟩ := bind_eq_ok.mp h
    obtain ⟨⟨superClass, _⟩, hsuper, h⟩ := bind_eq_ok.mp h
    obtain ⟨⟨interfaces, _⟩, hinterfaces, h⟩ := bind_eq_ok.mp h
    obtain ⟨⟨fields, _⟩, hfields, h⟩ := bind_eq_ok.mp h
    obtain ⟨⟨methods, _⟩, hmethods, h⟩ := bind_eq_ok.mp h
    obtain ⟨⟨attributes, _⟩, hattributes, h⟩ := bind_eq_ok.mp h
    cases h
    refine ⟨⟨Pool.fits_of_read hpool, (form_u16.counted.fits _ _ _ hinterfaces).1,
      MemberRecord.formAll.fits _ _ _ hfields, MemberRecord.formAll.fits _ _ _ hmethods,
      Attribute.formAll.fits _ _ _ hattributes⟩, ?_⟩
    obtain ⟨count, hs, hcount⟩ := Pool.of_read hpool
    have hfound' : found = magic := by simpa using hmagic
    refine ⟨be32 magic ++ (be16 minor ++ be16 major), pool.constantBytes ++ (be16 access ++ (be16 thisClass ++
      (be16 superClass ++ (count16 interfaces.length ++ (interfaces.flatMap be16 ++ (MemberRecord.bytesAll fields ++
        (MemberRecord.bytesAll methods ++ Attribute.bytesAll attributes))))))), count, rfl, ?_, ?_, hcount⟩
    · rw [exact_u32 _ _ _ hfound, hfound', exact_u16 _ _ _ hminor, exact_u16 _ _ _ hmajor, hs,
        exact_u16 _ _ _ haccess, exact_u16 _ _ _ hthis, exact_u16 _ _ _ hsuper,
        form_u16.counted.exact _ _ _ hinterfaces, MemberRecord.formAll.exact _ _ _ hfields,
        MemberRecord.formAll.exact _ _ _ hmethods, Attribute.formAll.exact _ _ _ hattributes]
      simp
    · rw [bytes, Pool.bytes_eq]
      simp

theorem format : Format read bytes Fits :=
  ⟨fun _ h rest => read_bytes h rest, fun _ _ _ h => (of_read h).1⟩

/-- A class file is read back from its bytes exactly if all its counts can be written. -/
theorem parse_bytes_iff (c : ClassFile) : parse c.bytes = .ok c ↔ c.Fits := format.parse_eq_ok c

/-- If the count of a method's attributes wraps to zero, they are taken for those of the class. -/
theorem parse_bytes_of_overflow (hpool : c.pool.Fits) (hinterfaces : c.interfaces.length ≤ 65535)
    (hfields : MemberRecord.FitAll c.fields) (hmethods : c.methods = [m])
    (hm : m.attributes.length % 65536 = 0) {e : Error}
    (he : Attribute.readAll (m.attributes.flatMap Attribute.bytes ++ Attribute.bytesAll c.attributes) = .error e) :
    parse c.bytes = .error e := by
  have hread := read_up_to_methods hpool hinterfaces hfields []
  have hone : (UInt16.ofNat [m].length).toNat = 1 := rfl
  simp only [append_nil, hmethods, MemberRecord.readAll, MemberRecord.bytesAll, counted, count16, bind,
    StateT.bind, Except.bind, append_assoc, u16_be16, hone, repeated, flatMap_cons, flatMap_nil,
    MemberRecord.read_bytes_of_overflow hm, he] at hread
  rw [parse, Bytes.parse, hread]
  rfl

theorem fits_of_parse (h : parse data = .ok c) : c.Fits :=
  format.fits_of_parse h

end ClassFile

end Untangle
