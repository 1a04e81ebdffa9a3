import Untangle.Proofs.CallSites.Leftovers
import Untangle.Proofs.Machine.Locals

/-!
# Objects made in the place of call sites

A site that stands for a constructor finds its arguments on the stack, where the new object has to go. So
they are stored from the last to the first in slots that the method does not use, the object is made, and
they are loaded again from the first to the last. All sites of a method share these slots, and the method
takes as many as the site with the widest arguments.
-/

namespace Untangle

open Machine List FieldType

/-! ### Arguments -/

/-- A value of the type, as far as the machine tells types apart. -/
def FieldType.Holds (t : FieldType) (x : Item) : Prop := x.kind? = some t.valueKind

theorem FieldType.slots_valueKind (t : FieldType) : t.valueKind.slots = t.slots := by
  cases t <;> rfl

theorem FieldType.Holds.slots_eq {t : FieldType} {x : Item} (h : t.Holds x) : x.slots = t.slots :=
  (Item.slots_of_kind? h).trans t.slots_valueKind

/-- The slots that values of the types take together. -/
def FieldType.width (params : List FieldType) : Nat := MethodDescriptor.argSlots ⟨params, none⟩

theorem FieldType.width_cons (t : FieldType) (ts : List FieldType) : width (t :: ts) = t.slots + width ts := rfl

theorem FieldType.height_of_holds {ts : List FieldType} {xs : List Item} (h : List.Forall₂ FieldType.Holds ts xs) :
    height xs = width ts := by
  induction h with
  | nil => rfl
  | cons hx _ ih => rw [height_cons, width_cons, ih, hx.slots_eq]

/-- The local slots that an instruction uses. -/
def Instruction.localSlots {τ : Type} : Instruction τ → List Nat
  | load kind slot | store kind slot => List.range' slot.toNat kind.slots
  | increment slot _ | leaveSub slot => [slot.toNat]
  | _ => []

namespace CallSites

section Parking

variable {limits : Limits} {params : List FieldType} {args : List Item} {base : UInt16}

/-- The next slot, where the addition does not wrap. -/
theorem toNat_next {t : FieldType} {n : Nat} (h : base.toNat + (t.slots + n) ≤ 65535) :
    (base + UInt16.ofNat t.slots).toNat = base.toNat + t.slots := by
  rw [UInt16.toNat_add, UInt16.toNat_ofNat']
  omega

/-- Every argument is kept within the slots behind the first. -/
theorem bounds_of_mem_parked (hbase : base.toNat + FieldType.width params ≤ 65535) {k : ValueKind × UInt16}
    (hk : k ∈ parked base params) :
    base.toNat ≤ k.2.toNat ∧ k.2.toNat + k.1.slots ≤ base.toNat + FieldType.width params := by
  induction params generalizing base with
  | nil => cases hk
  | cons t _ ih =>
    rw [width_cons] at hbase ⊢
    rcases mem_cons.mp hk with rfl | hk
    · simp only [slots_valueKind]
      omega
    · have hnext := toNat_next hbase
      have hbounds := ih (by omega) hk
      omega

/-- Stored from the last to the first, the arguments end up one after the other. -/
theorem moveAll_stores (hargs : List.Forall₂ FieldType.Holds params args)
    (hbase : base.toNat + FieldType.width params ≤ 65535)
    (hlimit : base.toNat + FieldType.width params ≤ limits.locals) (rest : List Item) (locals : Locals) (heap : Heap) :
    moveAll limits ((parked base params).reverse.map fun k => .store k.1 k.2) ⟨args.reverse ++ rest, locals, heap⟩ =
      some ⟨rest, locals.putAll base.toNat args, heap⟩ := by
  induction hargs generalizing base rest with
  | nil => rfl
  | @cons t x _ _ hx _ ih =>
    rw [width_cons] at hbase hlimit
    have hnext := toNat_next hbase
    -- the first argument is stored last, when all others are gone from above it
    have hrest := @ih (base + UInt16.ofNat t.slots) (by omega) (by omega) (x :: rest)
    have hstore : ∀ locals, move limits (.store t.valueKind base) ⟨x :: rest, locals, heap⟩ =
        some ⟨rest, locals.put base.toNat x, heap⟩ := by
      intro locals
      refine move_store ?_ hx rfl
      rw [slots_valueKind]
      omega
    rw [hnext] at hrest
    rw [parked, reverse_cons, map_append, reverse_cons, append_assoc, singleton_append,
      moveAll_append hrest, map_singleton, moveAll_cons _ (hstore _), Locals.putAll, hx.slots_eq]
    rfl

/-- Loaded from the first to the last, they are on the stack as before. -/
theorem moveAll_loads (hargs : List.Forall₂ FieldType.Holds params args)
    (hbase : base.toNat + FieldType.width params ≤ 65535)
    (hlimit : base.toNat + FieldType.width params ≤ limits.locals) {f : Frame Locals Heap}
    (hkept : f.locals.HasAll base.toNat args) (hheight : height args + height f.stack ≤ limits.stack) :
    moveAll limits ((parked base params).map fun k => .load k.1 k.2) f =
      some { f with stack := args.reverse ++ f.stack } := by
  induction hargs generalizing base f with
  | nil => rfl
  | @cons t x _ _ hx _ ih =>
    rw [width_cons] at hbase hlimit
    rw [height_cons] at hheight
    have hnext := toNat_next hbase
    obtain ⟨hhas, hrest⟩ := hkept
    have hload : move limits (.load t.valueKind base) f = some { f with stack := x :: f.stack } := by
      refine move_load ?_ hx hhas (by omega)
      rw [slots_valueKind]
      omega
    rw [parked, map_cons, moveAll_cons _ hload, ih (by omega) (by omega)]
    · simp
    · rwa [hnext, ← hx.slots_eq]
    · simp only [height_cons]
      omega

end Parking

/-! ### Constructor calls -/

/-- Instructions that put two references to a new object under arguments on the stack, and change no local
slot but `count` of them from `base` on. -/
def MakesRoom (limits : Limits) (owner : String) (params : List FieldType) (base count : Nat) (is : List Instr) :
    Prop :=
  ∀ args rest locals heap, List.Forall₂ FieldType.Holds params args → height (args.reverse ++ rest) + 2 ≤ limits.stack →
    ∃ locals', moveAll limits is ⟨args.reverse ++ rest, locals, heap⟩ =
        some ⟨args.reverse ++ .object heap.length :: .object heap.length :: rest, locals', heap ++ [owner]⟩ ∧
      ∀ slot, slot < base ∨ base + count ≤ slot → locals' slot = locals slot

section Constructors

variable {owner : String} {d : MethodDescriptor} {base : UInt16} {r : Replacement}

theorem constructorCall_eq_none_iff : constructorCall owner d base = none ↔ 65535 < base.toNat + d.argSlots := by
  unfold constructorCall
  split
  · next h => simpa using h
  · next h => simpa using h

section

variable (h : constructorCall owner d base = some r)

include h

/-- What a constructor call consists of. -/
theorem eq_of_constructorCall :
    base.toNat + d.argSlots ≤ 65535 ∧ r =
      { setup := (parked base d.params).reverse.map (fun k => .store k.1 k.2) ++
          ([.typed .new owner, .stack .dup] ++ (parked base d.params).map fun k => .load k.1 k.2)
        call := .invoke .special ⟨owner, "<init>", MethodDescriptor.text ⟨d.params, none⟩⟩ false
        spill := UInt16.ofNat d.argSlots
        extraStack := 2 } := by
  unfold constructorCall at h
  split at h
  · next hbase =>
    cases h
    refine ⟨hbase, ?_⟩
    rw [← append_assoc]
  · cases h

theorem localSlots_of_constructorCall {i : Instr} (hi : i ∈ r.setup) {slot : Nat} (hslot : slot ∈ i.localSlots) :
    base.toNat ≤ slot ∧ slot < base.toNat + d.argSlots := by
  obtain ⟨hbase, rfl⟩ := eq_of_constructorCall h
  have hkept : ∀ k ∈ parked base d.params, slot ∈ range' k.2.toNat k.1.slots →
      base.toNat ≤ slot ∧ slot < base.toNat + d.argSlots := by
    intro k hk hslot
    have hbounds : base.toNat ≤ k.2.toNat ∧ k.2.toNat + k.1.slots ≤ base.toNat + d.argSlots :=
      bounds_of_mem_parked hbase hk
    rw [mem_range'_1] at hslot
    omega
  simp only [mem_append, mem_map, mem_reverse, mem_cons, not_mem_nil, or_false] at hi
  rcases hi with ⟨k, hk, rfl⟩ | (rfl | rfl) | ⟨k, hk, rfl⟩
  · exact hkept k hk hslot
  · cases hslot
  · cases hslot
  · exact hkept k hk hslot

theorem makesRoom_of_constructorCall (hlimit : base.toNat + d.argSlots ≤ limits.locals) :
    MakesRoom limits owner d.params base.toNat d.argSlots r.setup := by
  intro args rest locals heap hargs hheight
  obtain ⟨hbase, rfl⟩ := eq_of_constructorCall h
  rw [height_append, height_reverse] at hheight
  have hwidth : height args = d.argSlots := height_of_holds hargs
  refine ⟨locals.putAll base.toNat args, ?_, fun slot hslot => Locals.putAll_outside (by rwa [hwidth])⟩
  rw [moveAll_append (moveAll_stores hargs hbase hlimit rest locals heap),
    moveAll_append (moveAll_new_dup owner (by simp only; omega))]
  refine moveAll_loads hargs hbase hlimit (Locals.hasAll_putAll ..) ?_
  have hslots : (Item.object heap.length).slots = 1 := rfl
  simp only [height_cons]
  omega

end

/-- A site becomes a single call, unless it stands for a constructor. -/
theorem setup_of_resolve {site : CallSite} {hints : Hints} (h : resolve site hints base = some r) :
    ((hints.withArguments site).lookup ≠ some .constructor ∧ r.setup = []) ∨
      ∃ target d, MethodDescriptor.parse site.descriptor = .ok d ∧ constructorCall target d base = some r := by
  obtain ⟨_, target, _, d, hlookup, -, hd, ⟨hother, _, _, rfl⟩ | ⟨-, hcall⟩⟩ := resolve_cases h
  · exact .inl ⟨mt hlookup.mpr hother, rfl⟩
  · exact .inr ⟨target, d, hd, hcall⟩

end Constructors

/-! ### Limits of a method -/

theorem toNat_saturatingAdd (a b : UInt16) : (saturatingAdd a b).toNat = min (a.toNat + b.toNat) 65535 := by
  rw [saturatingAdd, UInt16.toNat_ofNat', Nat.mod_eq_of_lt (by omega)]

section Limits

variable {owner : String} {known : List (Signature × Hints)} {base : UInt16}

/-- The needs of every site are counted, whatever the needs of the others are. -/
structure Progress.Covers (p : Progress) (r : Replacement) : Prop where
  spill : r.spill.toNat ≤ p.spill.toNat
  extraStack : r.extraStack.toNat ≤ p.extraStack.toNat

theorem Progress.Covers.withSite {p : Progress} {r' : Replacement} {linker : Signature} (h : p.Covers r ∨ r' = r) :
    (p.withSite linker r').Covers r := by
  unfold Progress.withSite
  constructor
  · rw [UInt16.toNat_max]
    rcases h with h | rfl
    · exact le_trans h.spill (le_max_left ..)
    · exact le_max_right ..
  · rw [UInt16.toNat_max]
    rcases h with h | rfl
    · exact le_trans h.extraStack (le_max_left ..)
    · exact le_max_right ..

theorem sweepWith_covers (p : Progress) (changes : Nat) (passed ns : List Node) :
    p.Covers r ∨ (∃ n ∈ ns, ∃ linker, settle? owner known base n.instr = some (linker, r)) →
      (sweepWith (rule owner known base) p changes passed ns).1.Covers r := by
  induction ns generalizing p changes passed with
  | nil => simp [sweepWith]
  | cons n _ ih =>
    rw [sweepWith_cons]
    intro h
    apply ih
    rw [exists_mem_cons_iff, ← or_assoc] at h
    refine h.imp_left fun h => ?_
    rcases @rule_cases owner known base p passed n with ⟨hnone, hrule⟩ | ⟨linker, _, hsome, hrule⟩
    · rw [hrule]
      refine h.resolve_right ?_
      rintro ⟨linker, hsome⟩
      rw [hnone] at hsome
      cases hsome
    · rw [hrule]
      refine .withSite (h.imp_right ?_)
      rintro ⟨_, hsome'⟩
      rw [hsome] at hsome'
      cases hsome'
      rfl

/-- A body after its sites were resolved: what stands in their place, and that the body says it takes all slots
for it. -/
structure HasRoom (owner : String) (known : List (Signature × Hints)) (b b' : Body) : Prop where
  instrs : b'.code.instrs = b.code.instrs.flatMap fun i =>
    setup owner known b.maxLocals i ++ [settled owner known b.maxLocals i]
  locals : b.maxLocals ≤ b'.maxLocals
  stack : b.maxStack ≤ b'.maxStack
  sites : ∀ site linker hints r, .invokeDynamic site ∈ b.code.instrs →
    linkedBy? owner (.invokeDynamic site) = some (site, linker) → known.reverse.lookup linker = some hints →
    resolve site hints b.maxLocals = some r →
    ((hints.withArguments site).lookup ≠ some .constructor ∧ r.setup = []) ∨
      ∃ target d, MethodDescriptor.parse site.descriptor = .ok d ∧
        constructorCall target d b.maxLocals = some r ∧
        (∀ j ∈ r.setup, ∀ slot ∈ j.localSlots, slot < b'.maxLocals.toNat) ∧
        MakesRoom ⟨b'.maxStack.toNat, b'.maxLocals.toNat⟩ target d.params b.maxLocals.toNat d.argSlots r.setup ∧
        (b.maxStack.toNat + 2 ≤ 65535 → b.maxStack.toNat + 2 ≤ b'.maxStack.toNat)

/-- The limits of the new body are those of the old one and what the sites take. -/
theorem resolveBody_limits (b : Body) : ∃ p : Progress,
    (resolveBody owner known b).2.2.maxLocals = saturatingAdd b.maxLocals p.spill ∧
      (resolveBody owner known b).2.2.maxStack = saturatingAdd b.maxStack p.extraStack ∧
      ∀ i ∈ b.code.instrs, ∀ linker r, settle? owner known b.maxLocals i = some (linker, r) → p.Covers r := by
  have hprogress := b.sweepWith_fst (fun _ => rule owner known b.maxLocals) ⟨b.code.nextId, 0, 0, []⟩
  obtain ⟨hlocals, hstack⟩ := b.sweepWith_limits (fun _ => rule owner known b.maxLocals) ⟨b.code.nextId, 0, 0, []⟩
  refine ⟨(sweepWith (rule owner known b.maxLocals) ⟨b.code.nextId, 0, 0, []⟩ 0 [] b.nodes).1, ?_, ?_,
    fun i hi linker r hsettle => ?_⟩
  · rw [← hprogress]
    exact congrArg (saturatingAdd · _) hlocals
  · rw [← hprogress]
    exact congrArg (saturatingAdd · _) hstack
  · obtain ⟨n, hn, rfl⟩ := mem_map.mp hi
    exact sweepWith_covers _ _ _ _ (.inr ⟨n, hn, linker, hsettle⟩)

theorem resolveBody_hasRoom (b : Body) : HasRoom owner known b (resolveBody owner known b).2.2 := by
  obtain ⟨p, hlocals, hstack, hcovers⟩ := @resolveBody_limits owner known b
  have hkept := resolveBody_rewritten owner known b
  refine ⟨(resolveBody_settled b).1, hkept.locals, hkept.stack, fun site linker hints r hi hlinked hhints hr => ?_⟩
  have hsettle := settle?_eq_some.mpr ⟨site, hints, hlinked, hhints, hr⟩
  refine (setup_of_resolve hr).imp_right ?_
  rintro ⟨target, d, hd, hcall⟩
  obtain ⟨hspill, hextra⟩ := hcovers _ hi linker r hsettle
  obtain ⟨hbase, hr⟩ := eq_of_constructorCall hcall
  have hwidth : r.spill.toNat = d.argSlots := by
    rw [hr]
    exact Nat.mod_eq_of_lt (by omega)
  have hroom : b.maxLocals.toNat + d.argSlots ≤ (resolveBody owner known b).2.2.maxLocals.toNat := by
    rw [hlocals, toNat_saturatingAdd]
    omega
  refine ⟨target, d, hd, hcall, fun j hj slot hslot => ?_,
    makesRoom_of_constructorCall hcall hroom, fun hfits => ?_⟩
  · exact lt_of_lt_of_le (localSlots_of_constructorCall hcall hj hslot).2 hroom
  · have htwo : r.extraStack.toNat = 2 := by
      rw [hr]
      rfl
    rw [hstack, toNat_saturatingAdd]
    omega

end Limits

/-- Constructor sites, for all of them and for every class. A constructor call comes about unless the arguments
do not fit into the local slots there are. It stores and loads them within as many slots from the first free
one on, and runs, wherever the limits allow for the slots and for two more on the stack, from any arguments of
its types to the same arguments over two references to one new object, with no other local changed. The code of
every method of a resolved class is the code it had with such instructions before the constructor calls, and the
method's new limits allow for all of them, given that two more stack slots can be counted. -/
theorem constructor_sites_make_room :
    (∀ owner d base, (constructorCall owner d base = none ↔ 65535 < base.toNat + d.argSlots) ∧
      ∀ r, constructorCall owner d base = some r →
        r.call = .invoke .special ⟨owner, "<init>", MethodDescriptor.text ⟨d.params, none⟩⟩ false ∧
        (∀ i ∈ r.setup, ∀ slot ∈ i.localSlots,
          base.toNat ≤ slot ∧ slot < base.toNat + d.argSlots ∧ slot < 65536) ∧
        ∀ limits : Limits, base.toNat + d.argSlots ≤ limits.locals →
          MakesRoom limits owner d.params base.toNat d.argSlots r.setup) ∧
      ∀ u : ClassUnit, ∀ m' ∈ (run u).2.methods, ∃ m ∈ u.methods, m'.signature = m.signature ∧
        ∀ b', m'.body = some b' → ∃ b, m.body = some b ∧ HasRoom u.name (linkers u) b b' := by
  constructor
  · refine fun owner d base => ⟨constructorCall_eq_none_iff, fun r h => ?_⟩
    obtain ⟨hbase, hr⟩ := eq_of_constructorCall h
    refine ⟨by rw [hr], fun i hi slot hslot => ?_, fun limits hlimit => makesRoom_of_constructorCall h hlimit⟩
    obtain ⟨hle, hlt⟩ := localSlots_of_constructorCall h hi hslot
    omega
  · intro u m' hm'
    obtain ⟨_, hms, hmethods⟩ := run_methods u
    obtain ⟨m, hm, hsettled⟩ := exists_of_forall₂_right hms ((hmethods m').mp hm').1
    refine ⟨m, hm, hsettled.signature, fun b' hb' => ?_⟩
    rw [hsettled.body, Option.map_eq_some_iff] at hb'
    obtain ⟨b, hb, rfl⟩ := hb'
    exact ⟨b, hb, resolveBody_hasRoom b⟩

/-- The type of a site that makes an object from a `long` and a string. -/
def makingType : MethodDescriptor := ⟨[.long, .object "java/lang/String"], some (.object "x/Y")⟩

/-- What takes its place in a method with four local slots. -/
def making : Replacement where
  setup := [.store .ref 6, .store .long 4, .typed .new "x/Y", .stack .dup, .load .long 4, .load .ref 6]
  call := .invoke .special ⟨"x/Y", "<init>", MethodDescriptor.text ⟨makingType.params, none⟩⟩ false
  spill := 3
  extraStack := 2

/-- A routine links the site to a constructor. -/
def makingClass : ClassUnit :=
  { (default : ClassUnit) with
    name := "A"
    methods :=
      [.ofInstrs 8 linkingRoutine.name linkingRoutine.descriptor
        [.push (.text (.ofString "x/Y")), .stack .pop, .invoke .virtual ⟨lookupClass, "findConstructor", "()V"⟩ false,
         .push .null, .leave (some .ref)],
       .ofInstrs 8 "m" "()V"
        [.push (.long 7), .push .null, .invokeDynamic ⟨1, "s", makingType.text, 0, linkingHandle "A", []⟩, .stack .pop,
         .leave none]] }

/-- The method gets three more local slots and two more stack slots, and its arguments are under the call
again with the object below them. -/
theorem makingClass_makes_room :
    constructorCall "x/Y" makingType 4 = some making ∧
      (∃ m ∈ (run makingClass).2.methods, ∃ b, m.body = some b ∧ b.maxStack = 6 ∧ b.maxLocals = 7 ∧
        b.code.instrs = [.push (.long 7), .push .null] ++ (making.setup ++ [making.call, .stack .pop, .leave none])) ∧
      ∃ locals, moveAll ⟨6, 7⟩ making.setup ⟨[.null, .number (.long 7)], fun _ => none, []⟩ =
        some ⟨[.null, .number (.long 7), .object 0, .object 0], locals, ["x/Y"]⟩ := by
  have hcall : constructorCall "x/Y" makingType 4 = some making := rfl
  have hrun : (run makingClass).2.methods.any fun m => m.body.any fun b => b.maxStack == 6 && b.maxLocals == 7 &&
      b.code.instrs == [.push (.long 7), .push .null] ++ (making.setup ++ [making.call, .stack .pop, .leave none]) := by
    decide +kernel
  simp only [any_eq_true, Option.any_eq_true, Bool.and_eq_true, beq_iff_eq, and_assoc] at hrun
  have hroom := ((constructor_sites_make_room.1 "x/Y" makingType 4).2 making hcall).2.2 ⟨6, 7⟩ (by decide)
  obtain ⟨locals, hmoves, -⟩ := hroom [.number (.long 7), .null] [] (fun _ => none) []
    (.cons rfl (.cons rfl .nil)) (by decide)
  exact ⟨hcall, hrun, locals, hmoves⟩

end CallSites

end Untangle
