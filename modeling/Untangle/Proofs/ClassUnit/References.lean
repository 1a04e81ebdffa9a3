import Untangle.Proofs.ClassUnit.Reading

/-!
# What the code of a class names

An instruction names a member of its class in one of four ways. It accesses a field or calls a method
itself, or it is a dynamic call site that has a handle for the member, as its linker or among its
arguments. The handles of a site are those in the slots of its entry of the bootstrap table, so none is
lost between the class file and the body.

The search for references finds exactly what is named in one of these ways. It does not look at a fifth
one: a handle may also be loaded as a constant, by its slot. So the search is complete for just the
classes in which every member that a loaded handle leads to is named in another way as well.
-/

namespace Untangle

open List

variable {h : Handle} {site : CallSite} {owner : String} {kind : MemberKind} {s : Signature} {p : Pool} {slot : UInt16}
  {f : Instr → List Signature}

/-- What a signature stands for. -/
inductive MemberKind where
  | field
  | method
deriving DecidableEq, Repr

/-- A way in which an instruction names a member. -/
inductive Naming where
  /-- It reads or writes the field. -/
  | access
  /-- It calls the method. -/
  | call
  /-- It is a site that a handle for the member links. -/
  | linker
  /-- It is a site that hands a handle for the member to its linker. -/
  | argument
deriving DecidableEq, Repr

namespace Handle

/-- What a handle is for. -/
def memberKind (h : Handle) : MemberKind := if h.isField then .field else .method

/-- The handle is for this member of a class. -/
def IsFor (owner : String) (kind : MemberKind) (s : Signature) (h : Handle) : Prop :=
  h.member.owner = owner ∧ h.memberKind = kind ∧ h.member.signature = s

instance (owner : String) (kind : MemberKind) (s : Signature) : DecidablePred (IsFor owner kind s) :=
  fun h => inferInstanceAs (Decidable (h.member.owner = owner ∧ h.memberKind = kind ∧ h.member.signature = s))

theorem isFor_field : h.IsFor owner .field s ↔ h.member.owner = owner ∧ h.isField = true ∧ h.member.signature = s := by
  cases hf : h.isField <;> simp [IsFor, memberKind, hf]

theorem isFor_method :
    h.IsFor owner .method s ↔ h.member.owner = owner ∧ h.isField = false ∧ h.member.signature = s := by
  cases hf : h.isField <;> simp [IsFor, memberKind, hf]

end Handle

namespace Pool

theorem handle_eq_ok (hh : p.handle slot = .ok h) :
    ∃ kind reference, p.get slot = .ok (.methodHandle kind reference) := by
  obtain ⟨c, hget, hh⟩ := bind_eq_ok.mp hh
  split at hh
  · exact ⟨_, _, hget⟩
  · cases hh

/-- An argument of a site is a handle just if there is one in its slot. -/
theorem bootstrapArg_eq_handle : p.bootstrapArg slot = .ok (.handle h) ↔ p.handle slot = .ok h := by
  constructor
  · intro harg
    obtain ⟨c, -, harg⟩ := bind_eq_ok.mp harg
    split at harg
    · obtain ⟨h', hh, harg⟩ := bind_eq_ok.mp harg
      cases harg
      exact hh
    · obtain ⟨literal, -, harg⟩ := bind_eq_ok.mp harg
      cases literal <;> cases harg
  · intro hh
    obtain ⟨_, _, hget⟩ := handle_eq_ok hh
    exact bind_eq_ok.mpr ⟨_, hget, bind_eq_ok.mpr ⟨h, hh, rfl⟩⟩

end Pool

namespace CallSite

theorem mem_handles : h ∈ site.handles ↔ h = site.bootstrap ∨ .handle h ∈ site.arguments := by
  unfold handles
  rw [mem_cons, mem_filterMap]
  refine or_congr_right ⟨?_, fun harg => ⟨_, harg, rfl⟩⟩
  rintro ⟨arg, harg, heq⟩
  cases arg with
  | handle =>
    cases heq
    exact harg
  | literal => cases heq
  | other => cases heq

/-- The handles of the site are those in the slots of its entry of the bootstrap table. -/
def LinkedBy (pool : Pool) (bootstraps : List BootstrapEntry) (site : CallSite) : Prop :=
  ∃ number signature entry, pool.get site.index = .ok (.invokeDynamic number signature) ∧
    bootstraps[number.toNat]? = some entry ∧
    ∀ h, h ∈ site.handles ↔ ∃ slot ∈ entry.method :: entry.arguments, pool.handle slot = .ok h

theorem linkedBy_of_callSite {pool : Pool} {bootstraps : List BootstrapEntry}
    (hsite : pool.callSite bootstraps site.index = .ok site) : site.LinkedBy pool bootstraps := by
  obtain ⟨-, number, signature, entry, hget, hentry, hbootstrap, harguments⟩ := Pool.callSite_eq_ok hsite
  refine ⟨number, signature, entry, hget, hentry, fun h => ?_⟩
  have hall := mapM_eq_ok.mp harguments
  simp only [mem_handles, mem_cons, exists_eq_or_imp, hbootstrap, Except.ok.injEq, eq_comm (a := h)]
  refine or_congr_right ⟨fun harg => ?_, ?_⟩
  · obtain ⟨slot, hslot, hread⟩ := exists_of_forall₂_right hall harg
    exact ⟨slot, hslot, Pool.bootstrapArg_eq_handle.mp hread⟩
  · rintro ⟨slot, hslot, hh⟩
    obtain ⟨_, harg, hread⟩ := exists_of_forall₂_left hall hslot
    rw [Pool.bootstrapArg_eq_handle.mpr hh] at hread
    cases hread
    exact harg

end CallSite

namespace Instruction

/-- The instruction names a member of a class. -/
inductive Names (owner : String) : Instr → Naming → MemberKind → Signature → Prop where
  | access {member : Member} (op : FieldOp) (h : member.owner = owner) :
      Names owner (.field op member) .access .field member.signature
  | call {member : Member} (kind : InvokeKind) (isInterface : Bool) (h : member.owner = owner) :
      Names owner (.invoke kind member isInterface) .call .method member.signature
  | linker {site : CallSite} {kind : MemberKind} {s : Signature} (h : site.bootstrap.IsFor owner kind s) :
      Names owner (.invokeDynamic site) .linker kind s
  | argument {site : CallSite} {handle : Handle} {kind : MemberKind} {s : Signature}
      (hmem : .handle handle ∈ site.arguments) (h : handle.IsFor owner kind s) :
      Names owner (.invokeDynamic site) .argument kind s

variable {i : Instr}

/-- A site names what its handles are for. -/
theorem names_invokeDynamic_iff :
    (∃ way, Names owner (.invokeDynamic site) way kind s) ↔ ∃ h ∈ site.handles, h.IsFor owner kind s := by
  constructor
  · rintro ⟨way, h⟩
    cases h with
    | linker h => exact ⟨_, CallSite.mem_handles.mpr (.inl rfl), h⟩
    | argument hmem h => exact ⟨_, CallSite.mem_handles.mpr (.inr hmem), h⟩
  · rintro ⟨h, hmem, hfor⟩
    rcases CallSite.mem_handles.mp hmem with rfl | hmem
    · exact ⟨.linker, .linker hfor⟩
    · exact ⟨.argument, .argument hmem hfor⟩

theorem mem_accessesOf : s ∈ i.accessesOf owner ↔ i.Names owner .access .field s := by
  constructor
  · intro h
    unfold accessesOf at h
    split at h
    · split at h
      · rename_i howner
        obtain rfl := mem_singleton.mp h
        exact .access _ howner
      · cases h
    · cases h
  · rintro ⟨_, howner⟩
    simp [accessesOf, howner]

theorem mem_callsOf : s ∈ i.callsOf owner ↔ i.Names owner .call .method s := by
  constructor
  · intro h
    unfold callsOf at h
    split at h
    · split at h
      · rename_i howner
        obtain rfl := mem_singleton.mp h
        exact .call _ _ howner
      · cases h
    · cases h
  · intro h
    cases h with
    | call _ _ howner => simp [callsOf, howner]

theorem mem_fieldsOf : s ∈ i.fieldsOf owner ↔ ∃ way, i.Names owner way .field s := by
  unfold fieldsOf
  split
  · rw [names_invokeDynamic_iff]
    simp [Handle.isFor_field, and_assoc]
  · rename_i hsite
    rw [mem_accessesOf]
    refine ⟨fun h => ⟨_, h⟩, ?_⟩
    rintro ⟨way, h⟩
    cases h with
    | access op howner => exact .access op howner
    | linker => exact absurd rfl (hsite _)
    | argument => exact absurd rfl (hsite _)

theorem mem_methodsOf : s ∈ i.methodsOf owner ↔ ∃ way, i.Names owner way .method s := by
  unfold methodsOf
  split
  · rw [names_invokeDynamic_iff]
    simp [Handle.isFor_method, and_assoc]
  · rename_i hsite
    rw [mem_callsOf]
    refine ⟨fun h => ⟨_, h⟩, ?_⟩
    rintro ⟨way, h⟩
    cases h with
    | call kind isInterface howner => exact .call kind isInterface howner
    | linker => exact absurd rfl (hsite _)
    | argument => exact absurd rfl (hsite _)

end Instruction

/-- The handle that an instruction loads as a constant, by its slot. -/
def Instruction.loadedHandle? (pool : Pool) : Instr → Option Handle
  | .push (.pooled slot _) => (pool.handle slot).toOption
  | _ => none

namespace Method

/-- The code of the method names a member of a class. -/
def Names (owner : String) (m : Method) (way : Naming) (kind : MemberKind) (s : Signature) : Prop :=
  ∃ i ∈ m.instrs, i.Names owner way kind s

/-- A call site of the method has a handle with this owner and signature. -/
def Hands (owner : String) (m : Method) (s : Signature) : Prop :=
  ∃ kind, m.Names owner .linker kind s ∨ m.Names owner .argument kind s

variable {m m' : Method}

/-- The handles of a method are those of its call sites. -/
theorem Hands.mono (hsites : ∀ site, .invokeDynamic site ∈ m.instrs → .invokeDynamic site ∈ m'.instrs)
    (h : m.Hands owner s) : m'.Hands owner s := by
  obtain ⟨kind, h⟩ := h
  refine ⟨kind, h.imp ?_ ?_⟩
  · rintro ⟨i, hi, hnames⟩
    cases hnames with
    | linker hfor => exact ⟨_, hsites _ hi, .linker hfor⟩
  · rintro ⟨i, hi, hnames⟩
    cases hnames with
    | argument hmem hfor => exact ⟨_, hsites _ hi, .argument hmem hfor⟩

end Method

namespace ClassUnit

/-- The signatures of the members. -/
def members (u : ClassUnit) : MemberKind → List Signature
  | .field => u.fields.map Field.signature
  | .method => u.methods.map Method.signature

/-- What the search for references finds. -/
def referenced (u : ClassUnit) : MemberKind → List Signature
  | .field => u.referencedFields
  | .method => u.referencedMethods

/-- The code of the class names one of its own members. -/
def Names (u : ClassUnit) (way : Naming) (kind : MemberKind) (s : Signature) : Prop :=
  ∃ m ∈ u.methods, m.Names u.name way kind s

/-- The code of the class loads, as a constant, a handle for one of its own members. -/
def Loads (u : ClassUnit) (kind : MemberKind) (s : Signature) : Prop :=
  ∃ m ∈ u.methods, ∃ i ∈ m.instrs, ∃ h ∈ i.loadedHandle? u.file.pool, h.IsFor u.name kind s

instance (u : ClassUnit) (kind : MemberKind) (s : Signature) : Decidable (u.Loads kind s) :=
  inferInstanceAs (Decidable (∃ m ∈ u.methods, ∃ i ∈ m.instrs, ∃ h ∈ i.loadedHandle? u.file.pool,
    h.IsFor u.name kind s))

/-- The code of the class without the constants that it loads. -/
def instrsButLoads (u : ClassUnit) : List Instr :=
  (u.methods.flatMap Method.instrs).filter fun i => !(i matches .push _)

variable {u : ClassUnit}

/-- What finds nothing in a constant that is loaded need not look at it. -/
theorem collect_eq_flatMap (hf : ∀ value, f (.push value) = []) : u.collect f = u.instrsButLoads.flatMap f := by
  rw [collect, instrsButLoads, ← flatMap_assoc]
  induction u.methods.flatMap Method.instrs with
  | nil => rfl
  | cons i _ ih =>
    cases i with
    | push value => rw [flatMap_cons, hf, ih, nil_append, filter_cons_of_neg (by simp)]
    | _ => rw [flatMap_cons, ih, filter_cons_of_pos rfl, flatMap_cons]

theorem mem_collect : s ∈ u.collect f ↔ ∃ m ∈ u.methods, ∃ i ∈ m.instrs, s ∈ f i := by
  simp [collect]

/-- The search finds what is named, and nothing else. -/
theorem mem_referenced : s ∈ u.referenced kind ↔ ∃ way, u.Names way kind s := by
  have hcomm : (∃ way, u.Names way kind s) ↔
      ∃ m ∈ u.methods, ∃ i ∈ m.instrs, ∃ way, i.Names u.name way kind s := by
    constructor
    · rintro ⟨way, m, hm, i, hi, h⟩
      exact ⟨m, hm, i, hi, way, h⟩
    · rintro ⟨m, hm, i, hi, way, h⟩
      exact ⟨way, m, hm, i, hi, h⟩
  rw [hcomm]
  cases kind with
  | field => simp [referenced, referencedFields, mem_collect, Instruction.mem_fieldsOf]
  | method => simp [referenced, referencedMethods, mem_collect, Instruction.mem_methodsOf]

/-- No handle of a site is lost when a class is read. -/
theorem AsRead.linkedBy (h : u.AsRead) (hm : m ∈ u.methods) (hsite : .invokeDynamic site ∈ m.instrs) :
    site.LinkedBy u.file.pool u.bootstraps := by
  cases hb : m.body with
  | none =>
    rw [Method.instrs, hb] at hsite
    cases hsite
  | some b =>
    rw [Method.instrs, hb] at hsite
    obtain ⟨n, hn, hinstr⟩ := mem_map.mp hsite
    obtain ⟨a, _, -, -, hd⟩ := h.code m hm b hb
    obtain ⟨_, _, _, hdecoded, hfits, rfl⟩ := Disassembly.fits_of_disassemble hd
    have hreal : n.isReal = true := by rw [Node.isReal, hinstr]; rfl
    obtain ⟨d, hd, heq⟩ := Disassembly.instr_of_mem_body hfits.sane hn hreal
    have hgenuine := (Disassembly.decoded_ascending hdecoded).2 d hd
    -- a site has no targets, so the decoded one is the same
    obtain ⟨site', hsite'⟩ : ∃ site', d.2 = .invokeDynamic site' := by
      rw [hinstr] at heq
      cases hd2 : d.2 <;> rw [hd2] at heq <;> cases heq
      exact ⟨_, rfl⟩
    rw [hinstr, hsite'] at heq
    cases heq
    have hfrom := hgenuine.site
    rw [hsite'] at hfrom
    exact CallSite.linkedBy_of_callSite hfrom

/-- How far the search for references can be trusted, for every class that was read. It finds exactly the
members that are named in one of the four ways, and the handles that it looks at are all those in the
bootstrap table. Constants that are loaded make no difference to it, so a member that the code loads a handle for
is found only if it is named as well. -/
theorem referenced_complete_iff {data : List UInt8} (h : parse data = .ok u) :
    (∀ kind s, s ∈ u.referenced kind ↔ ∃ way, u.Names way kind s) ∧
      (∀ m ∈ u.methods, ∀ site, .invokeDynamic site ∈ m.instrs → site.LinkedBy u.file.pool u.bootstraps) ∧
      ∀ v : ClassUnit, v.name = u.name → v.instrsButLoads = u.instrsButLoads → v.referenced = u.referenced := by
  refine ⟨fun kind s => mem_referenced, fun m hm site hsite => ?_, fun v hname hinstrs => ?_⟩
  · exact (asRead_of_parse h).2.linkedBy hm hsite
  · funext kind
    cases kind with
    | field =>
      show v.collect (·.fieldsOf v.name) = u.collect (·.fieldsOf u.name)
      rw [hname, collect_eq_flatMap fun _ => rfl, collect_eq_flatMap fun _ => rfl, hinstrs]
    | method =>
      show v.collect (·.methodsOf v.name) = u.collect (·.methodsOf u.name)
      rw [hname, collect_eq_flatMap fun _ => rfl, collect_eq_flatMap fun _ => rfl, hinstrs]

end ClassUnit

/-! ### A handle that is only loaded -/

/-- A class with a method of a planted name, and one whose code has some bytes. Slot 7 of its pool is a
handle for the planted one. -/
def loadingClass (slots : UInt8) (constants code attributes : List UInt8) : List UInt8 :=
  [0xca, 0xfe, 0xba, 0xbe, 0, 0, 0, 52, 0, slots,
   1, 0, 1, 65, 7, 0, 1, 1, 0, 9, 97, 98, 99, 100, 101, 102, 103, 104, 105, 1, 0, 4, 40, 41, 91, 66,
   12, 0, 3, 0, 4, 10, 0, 2, 0, 5, 15, 6, 0, 6, 1, 0, 1, 109, 1, 0, 3, 40, 41, 86, 1, 0, 4, 67, 111, 100, 101] ++
  constants ++
  [0, 33, 0, 2, 0, 0, 0, 0, 0, 0, 0, 2,
   0, 10, 0, 3, 0, 4, 0, 1, 0, 10, 0, 0, 0, 14, 0, 1, 0, 0, 0, 0, 0, 2, 1, 176, 0, 0, 0, 0,
   0, 8, 0, 8, 0, 9, 0, 1, 0, 10, 0, 0, 0, UInt8.ofNat (12 + code.length), 0, 1, 0, 0, 0, 0, 0,
   UInt8.ofNat code.length] ++ code ++ [0, 0, 0, 0] ++ attributes

/-- Loads the handle, drops it and returns. -/
def handleLoader : List UInt8 := loadingClass 11 [] [0x12, 7, 0x57, 0xb1] [0, 0]

/-- Does the same, with a call site in between that the handle links, and that has it for an argument. -/
def handleUser : List UInt8 :=
  loadingClass 14
    [18, 0, 0, 0, 12, 12, 0, 8, 0, 9,
     1, 0, 16, 66, 111, 111, 116, 115, 116, 114, 97, 112, 77, 101, 116, 104, 111, 100, 115]
    [0x12, 7, 0x57, 0xba, 0, 11, 0, 0, 0xb1]
    [0, 1, 0, 13, 0, 0, 0, 8, 0, 1, 0, 7, 0, 1, 0, 7]

/-- The planted method. -/
def planted : Signature := ⟨"abcdefghi", "()[B"⟩

/-- What is loaded and named is found, and the site has the handles of its entry in the table. -/
theorem handleUser_referenced :
    ∃ u, ClassUnit.parse handleUser = .ok u ∧ u.Loads .method planted ∧ planted ∈ u.referenced .method ∧
      ∃ m ∈ u.methods, ∃ site, .invokeDynamic site ∈ m.instrs ∧ site.LinkedBy u.file.pool u.bootstraps := by
  let handle : Handle := ⟨6, ⟨"A", planted.name, planted.descriptor⟩, false⟩
  let site : CallSite := ⟨11, "m", "()V", 0, handle, [.handle handle]⟩
  have hrun : (do
      let u ← ClassUnit.parse handleUser
      return decide (u.name = "A" ∧ u.Loads .method planted ∧
        ∃ m ∈ u.methods, .invokeDynamic site ∈ m.instrs)) = Except.ok true := by
    decide +kernel
  obtain ⟨u, hu, hrun⟩ := bind_eq_ok.mp hrun
  obtain ⟨hname, hloads, m, hm, hsite⟩ := of_decide_eq_true (Except.ok.inj hrun)
  have hnames : u.Names .linker .method planted := ⟨m, hm, _, hsite, .linker ⟨hname.symm, rfl, rfl⟩⟩
  obtain ⟨hfound, hlinked, -⟩ := ClassUnit.referenced_complete_iff hu
  exact ⟨u, hu, hloads, (hfound .method planted).mpr ⟨_, hnames⟩, m, hm, site, hsite, hlinked m hm site hsite⟩

/-- The handle that is only loaded is not found, and the method that it is for is taken out while the code
still loads it. -/
theorem handleLoader_not_referenced :
    ∃ u, ClassUnit.parse handleLoader = .ok u ∧ planted ∈ u.members .method ∧ u.Loads .method planted ∧
      planted ∉ u.referenced .method ∧ planted ∉ (JunkMembers.run u).2.members .method ∧
      (JunkMembers.run u).2.Loads .method planted := by
  have hrun : (do
      let u ← ClassUnit.parse handleLoader
      return decide (planted ∈ u.members .method ∧ u.Loads .method planted ∧
        planted ∉ u.referenced .method ∧ planted ∉ (JunkMembers.run u).2.members .method ∧
        (JunkMembers.run u).2.Loads .method planted)) = Except.ok true := by
    decide +kernel
  obtain ⟨u, hu, hrun⟩ := bind_eq_ok.mp hrun
  exact ⟨u, hu, of_decide_eq_true (Except.ok.inj hrun)⟩

end Untangle
