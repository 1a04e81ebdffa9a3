import Untangle.Proofs.ClassUnit.Removal

/-!
# Methods that provide bytes

A method provides bytes if its code makes an array, stores literals into it and returns it. The code is read
from the first place that makes an array of bytes: the length is pushed right before it, and groups of four
instructions follow up to a return. What stands before the length or after the return is not looked at, and
neither is where the code jumps. So the bytes are those of a stretch of the code, and of the whole code only if
there is nothing around that stretch.
-/

namespace Untangle

open List

/-- A removed node reads as an instruction that does nothing, and as no other. -/
theorem Node.content_of_instr {n : Node} {i : Instr} (h : n.instr = i) (hi : i ≠ .plain Opcode.nop) :
    n.content = some i := by
  cases n with
  | mk _ content =>
    cases content with
    | none => exact absurd h.symm hi
    | some j => exact congrArg some h

theorem Method.realInstrs_eq {m : Method} {b : Body} (hb : m.body = some b) :
    m.realInstrs = (b.nodes.filter Node.isReal).map Node.instr := by
  rw [realInstrs, instrs, hb]
  exact filter_map

namespace StaticData

open Node (content_of_instr)

/-! ### Groups of four instructions -/

/-- A literal and the place where it is stored. -/
structure Deposit where
  place : Int32
  value : Literal

namespace Deposit

/-- The group that stores the literal into an array on the stack, and leaves the array there. -/
def code (store : UInt8) (d : Deposit) : List Instr :=
  [.stack .dup, .push (.int d.place), .push d.value, .plain store]

def slot (d : Deposit) : Nat := d.place.toInt.toNat

def put (cells : Cells) (d : Deposit) : Cells := cells.setIfInBounds d.slot (some d.value)

end Deposit

section Filling

variable {store : UInt8} {cells cells' : Cells} {ns rest : List Node}

/-- Nothing is stored where no group starts. -/
theorem fill_of_ne_dup (h : ∀ n ∈ rest.head?, n.instr ≠ .stack .dup) : fill store cells rest = some (cells, rest) := by
  have hdup : ∀ n ∈ rest.head?, n.content ≠ some (.stack .dup) := fun n hn => mt Node.instr_of_content (h n hn)
  unfold fill
  split <;> simp_all

theorem fill_append (hstore : store ≠ Opcode.nop) {ds : List Deposit} {front : List Node}
    (hfront : front.map Node.instr = ds.flatMap (Deposit.code store))
    (hds : ∀ d ∈ ds, 0 ≤ d.place ∧ d.place.toInt < cells.size) (hrest : ∀ n ∈ rest.head?, n.instr ≠ .stack .dup) :
    fill store cells (front ++ rest) = some (ds.foldl Deposit.put cells, rest) := by
  induction ds generalizing cells front with
  | nil =>
    rw [map_eq_nil_iff.mp hfront]
    exact fill_of_ne_dup hrest
  | cons d ds ih =>
    simp only [flatMap_cons, Deposit.code, cons_append, map_eq_cons_iff] at hfront
    obtain ⟨_, _, rfl, h₁, _, _, rfl, h₂, _, _, rfl, h₃, _, front, rfl, h₄, hfront⟩ := hfront
    simp only [cons_append, fill, content_of_instr h₁ (by simp), content_of_instr h₂ (by simp),
      content_of_instr h₃ (by simp), content_of_instr h₄ (by simpa using hstore), hds d mem_cons_self]
    refine ih hfront fun d' hd' => ?_
    simpa using hds d' (mem_cons_of_mem d hd')

theorem exists_of_fill (h : fill store cells ns = some (cells', rest)) :
    ∃ (ds : List Deposit) (front : List Node), ns = front ++ rest ∧
      front.map Node.instr = ds.flatMap (Deposit.code store) ∧
      (∀ d ∈ ds, 0 ≤ d.place ∧ d.place.toInt < cells.size) ∧ (∀ n ∈ rest.head?, n.instr ≠ .stack .dup) ∧
      cells' = ds.foldl Deposit.put cells := by
  fun_induction fill store cells ns with
  | case1 cells d i v s _ hd place value hi hv hs ih =>
    obtain ⟨ds, front, rfl, hfront, hds, hrest, rfl⟩ := ih h
    refine ⟨⟨place, value⟩ :: ds, d :: i :: v :: s :: front, rfl, ?_, ?_, hrest, rfl⟩
    · simp [hfront, Node.instr, hd, hi, hv, hs.1, Deposit.code]
    · rintro d' (_ | ⟨_, hd'⟩)
      · exact hs.2
      · simpa using hds d' hd'
  | case4 _ d _ _ _ _ hd | case6 _ d _ _ hd =>
    cases h
    refine ⟨[], [], rfl, rfl, (by simp), ?_, rfl⟩
    rintro _ ⟨⟩ hinstr
    exact hd (content_of_instr hinstr (by simp))
  | case7 =>
    cases h
    exact ⟨[], [], rfl, rfl, (by simp), (by simp), rfl⟩
  | _ => cases h

end Filling

/-! ### The bytes -/

/-- The low byte of an `int`. No other literal has one. -/
def lowByte : Literal → UInt8
  | .int v => v.toUInt32.toUInt8
  | _ => 0

/-- At each place the low byte of what is stored there last, or zero. -/
def contents (length : Nat) (ds : List Deposit) : List UInt8 :=
  (List.range length).map fun i => (ds.reverse.find? (·.slot = i)).elim 0 fun d => lowByte d.value

theorem contents_append (length : Nat) (ds : List Deposit) (d : Deposit) :
    contents length (ds ++ [d]) = (contents length ds).set d.slot (lowByte d.value) := by
  refine ext_getElem? fun i => ?_
  rw [getElem?_set]
  by_cases hi : i < length
  · by_cases hd : d.slot = i <;> simp [contents, hd, hi]
  · simp [contents, hi]
    omega

theorem bytesOf_foldl_put (ds : List Deposit) (length : Nat) :
    bytesOf (ds.foldl Deposit.put (Array.replicate length none)) = contents length ds := by
  induction ds using reverseRecOn with
  | nil => simp [bytesOf, contents]
  | append_singleton ds d ih =>
    rw [contents_append, ← ih, foldl_append, foldl_cons, foldl_nil, Deposit.put, bytesOf,
      Array.toList_setIfInBounds, map_set]
    cases d.value <;> rfl

/-! ### Arrays that are filled -/

/-- The array made at a place: its length is pushed before it, and groups follow that store into it. -/
structure FilledAt (p : Place) (store : UInt8) (length : Int32) (ds : List Deposit) (front rest : List Node) :
    Prop where
  pushed : (p.before.find? Node.isReal).map Node.instr = some (.push (.int length))
  bounds : 0 ≤ length ∧ length ≤ longest
  within : ∀ d ∈ ds, 0 ≤ d.place ∧ d.place < length
  after : p.after.filter Node.isReal = front ++ rest
  groups : front.map Node.instr = ds.flatMap (Deposit.code store)
  done : ∀ n ∈ rest.head?, n.instr ≠ .stack .dup

theorem lt_size_iff {length place : Int32} (h : 0 ≤ length) :
    place.toInt < (Array.replicate length.toInt.toNat (none : Option Literal)).size ↔ place < length := by
  rw [Int32.lt_iff_toInt_lt, Array.size_replicate, Int.toNat_of_nonneg (Int32.le_iff_toInt_le.mp h)]

theorem arrayAt_eq_some_iff {p : Place} (hstore : store ≠ Opcode.nop) : arrayAt p store = some (cells, rest) ↔
      ∃ length ds front, FilledAt p store length ds front rest ∧
        cells = ds.foldl Deposit.put (Array.replicate length.toInt.toNat none) := by
  constructor
  · intro h
    obtain ⟨l, hl, h⟩ := Option.bind_eq_some_iff.mp h
    split at h
    case h_2 => cases h
    next length hlength =>
    split at h
    case isFalse => cases h
    next hbounds =>
    obtain ⟨ds, front, hafter, hfront, hds, hrest, rfl⟩ := exists_of_fill h
    refine ⟨length, ds, front, ⟨?_, hbounds, fun d hd => ?_, hafter, hfront, hrest⟩, rfl⟩
    · rw [hl, Option.map_some, Node.instr_of_content hlength]
    · exact ⟨(hds d hd).1, (lt_size_iff hbounds.1).mp (hds d hd).2⟩
  · rintro ⟨length, ds, front, h, rfl⟩
    obtain ⟨l, hl, hlength⟩ := Option.map_eq_some_iff.mp h.pushed
    unfold arrayAt
    rw [hl, Option.bind_eq_bind, Option.bind_some, content_of_instr hlength (by simp)]
    simp only [h.bounds, h.after]
    exact fill_append hstore h.groups (fun d hd => ⟨(h.within d hd).1, (lt_size_iff h.bounds.1).mpr (h.within d hd).2⟩)
      h.done

/-! ### Methods -/

/-- Code that makes an array of bytes, stores literals into it, none outside, and returns it. -/
def FillsBytes (is : List Instr) (bytes : List UInt8) : Prop :=
  ∃ (length : Int32) (ds : List Deposit), (0 ≤ length ∧ length ≤ longest) ∧ (∀ d ∈ ds, 0 ≤ d.place ∧ d.place < length) ∧
    is = .push (.int length) :: .newArray byteArray ::
      (ds.flatMap (Deposit.code Opcode.bastore) ++ [.leave (some .ref)]) ∧
    bytes = contents length.toInt.toNat ds

section Provided

variable {m : Method} {bytes : List UInt8} {before is after : List Instr}

theorem exists_fillsBytes (h : provided? m = some bytes) : (m.descriptor = "()[B" ∧ m.isStatic = true) ∧
    ∃ before is after, m.realInstrs = before ++ is ++ after ∧ .newArray byteArray ∉ before ∧ FillsBytes is bytes := by
  unfold provided? at h
  split at h
  case isFalse => cases h
  next hm =>
  simp only [Option.bind_eq_bind, Option.bind_eq_some_iff, Prod.exists] at h
  obtain ⟨b, hb, p, hp, _, rest, hcells, n, hn, h⟩ := h
  split at h
  case h_2 => cases h
  next hleave =>
  cases h
  obtain ⟨pre, hnodes, hbefore, hnew, hpre⟩ := Place.find_eq_some.mp hp
  obtain ⟨length, ds, _, hfilled, rfl⟩ := (arrayAt_eq_some_iff (by decide)).mp hcells
  obtain ⟨l, hl, hlength⟩ := Option.map_eq_some_iff.mp hfilled.pushed
  obtain ⟨hreal, gap, back, hsplit, hgap⟩ := find?_eq_some_iff_append.mp hl
  obtain ⟨rest, rfl⟩ := head?_eq_some_iff.mp hn
  obtain rfl : pre = back.reverse ++ l :: gap.reverse := by
    rw [← pre.reverse_reverse, ← pre.reverse.append_nil, ← hbefore, hsplit]
    simp
  refine ⟨hm, (back.reverse.filter Node.isReal).map Node.instr, _, rest.map Node.instr, ?_, fun hmem => ?_,
    length, ds, hfilled.bounds, hfilled.within, rfl, bytesOf_foldl_put _ _⟩
  · have hgap : gap.reverse.filter Node.isReal = [] := by simpa using hgap
    have hinstr : p.node.instr = .newArray byteArray := Node.instr_of_content (beq_iff_eq.mp hnew)
    rw [Method.realInstrs_eq hb, hnodes, filter_append, filter_append, filter_cons_of_pos hreal, hgap,
      filter_cons_of_pos (by rw [Node.isReal, hinstr]; rfl), hfilled.after]
    simp [hfilled.groups, hlength, hinstr, Node.instr_of_content hleave]
  · obtain ⟨x, hx, hinstr⟩ := mem_map.mp hmem
    have hother := hpre x (by simp [mem_of_mem_filter hx])
    simp [content_of_instr hinstr (by simp)] at hother

theorem provided?_eq_some (hm : m.descriptor = "()[B" ∧ m.isStatic = true)
    (hinstrs : m.realInstrs = before ++ is ++ after) (hbefore : .newArray byteArray ∉ before)
    (his : FillsBytes is bytes) : provided? m = some bytes := by
  obtain ⟨length, ds, hbounds, hds, rfl, rfl⟩ := his
  obtain ⟨b, hb⟩ : ∃ b, m.body = some b := by
    cases hb : m.body with
    | none => simp [Method.realInstrs, Method.instrs, hb] at hinstrs
    | some b => exact ⟨b, rfl⟩
  -- each instruction of the stretch has its node, with nodes that do not execute between them
  rw [Method.realInstrs_eq hb] at hinstrs
  simp only [cons_append, append_assoc, map_eq_append_iff, map_eq_cons_iff] at hinstrs
  obtain ⟨_, _, hnodes, rfl, l, _, rfl, hl, a, _, rfl, ha, front, _, rfl, hfront, n, rest, rfl, hn, -⟩ := hinstrs
  obtain ⟨back, _, hns, hback, hnodes⟩ := filter_eq_append_iff.mp hnodes
  obtain ⟨gap, _, rfl, hgap, hlreal, hnodes⟩ := filter_eq_cons_iff.mp hnodes
  obtain ⟨gap', tail, rfl, hgap', -, htail⟩ := filter_eq_cons_iff.mp hnodes
  have hp : Place.find (·.content == some (.newArray byteArray)) [] b.nodes =
      some ⟨gap'.reverse ++ l :: (back ++ gap).reverse, a, tail⟩ := by
    refine Place.find_eq_some.mpr ⟨back ++ gap ++ l :: gap', by simp [hns], by simp, ?_, fun x hx => ?_⟩
    · simp [content_of_instr ha (by simp)]
    · rw [Bool.eq_false_iff]
      intro hcontent
      have hinstr := Node.instr_of_content (beq_iff_eq.mp hcontent)
      have hreal : x.isReal = true := by rw [Node.isReal, hinstr]; rfl
      simp only [mem_append, mem_cons] at hx
      rcases hx with (hx | hx) | rfl | hx
      · rw [← hback] at hbefore
        exact hbefore (mem_map.mpr ⟨x, mem_filter.mpr ⟨hx, hreal⟩, hinstr⟩)
      · exact hgap x hx hreal
      · rw [hl] at hinstr
        cases hinstr
      · exact hgap' x hx hreal
  have hfilled : FilledAt ⟨gap'.reverse ++ l :: (back ++ gap).reverse, a, tail⟩ Opcode.bastore length ds front
      (n :: rest) := by
    refine ⟨?_, hbounds, hds, htail, hfront, by simp [hn]⟩
    have hfind : (gap'.reverse ++ l :: (back ++ gap).reverse).find? Node.isReal = some l :=
      find?_eq_some_iff_append.mpr ⟨hlreal, _, _, rfl, by simpa using hgap'⟩
    rw [hfind, Option.map_some, hl]
  have hcells := (arrayAt_eq_some_iff (by decide)).mpr ⟨length, ds, front, hfilled, rfl⟩
  unfold provided?
  rw [if_pos hm, hb]
  simp only [Option.bind_eq_bind, Option.bind_some, hp, hcells, head?_cons, content_of_instr hn (by simp),
    bytesOf_foldl_put]

/-- A stretch of code that fills an array is all of such code, or none of it: the array is made once, and the
return ends it. -/
theorem FillsBytes.alone {bytes' : List UInt8} (h : FillsBytes is bytes)
    (hall : FillsBytes (before ++ is ++ after) bytes') : before = [] ∧ after = [] := by
  obtain ⟨length, ds, -, -, rfl, -⟩ := h
  obtain ⟨length', ds', -, -, hcode, -⟩ := hall
  have hcode : [.push (.int length')] ++ .newArray byteArray ::
        (ds'.flatMap (Deposit.code Opcode.bastore) ++ [.leave (some .ref)]) =
      (before ++ [.push (.int length)]) ++ .newArray byteArray ::
        (ds.flatMap (Deposit.code Opcode.bastore) ++ .leave (some .ref) :: after) := by
    simpa using hcode.symm
  obtain ⟨hpush, -, hcode⟩ := (append_cons_inj_of_notMem (by simp) (by simp [Deposit.code])).mp hcode
  obtain ⟨-, -, hafter⟩ := (append_cons_inj_of_notMem (by simp [Deposit.code]) not_mem_nil).mp hcode
  exact ⟨by simpa using congrArg List.length hpush, hafter.symm⟩

end Provided

/-- The bytes that a method provides, for every method: it is a static method without parameters that returns an
array of bytes, the first place that makes such an array stands in a stretch of code that pushes a length, makes
the array, stores literals into it and returns it, and the bytes are the low bytes of what is stored last at each
place, and zero elsewhere. The method does nothing but that exactly if there is no code before the stretch and none
after it. -/
theorem provided?_eq_some_iff_stretch (m : Method) (bytes : List UInt8) : provided? m = some bytes ↔
    (m.descriptor = "()[B" ∧ m.isStatic = true) ∧ ∃ before is after, m.realInstrs = before ++ is ++ after ∧
      .newArray byteArray ∉ before ∧ FillsBytes is bytes ∧
      (FillsBytes m.realInstrs bytes ↔ before = [] ∧ after = []) := by
  constructor
  · intro h
    obtain ⟨hm, before, is, after, hinstrs, hbefore, his⟩ := exists_fillsBytes h
    refine ⟨hm, before, is, after, hinstrs, hbefore, his, fun hall => his.alone (hinstrs ▸ hall), ?_⟩
    rintro ⟨rfl, rfl⟩
    rw [hinstrs, append_nil]
    exact his
  · rintro ⟨hm, before, is, after, hinstrs, hbefore, his, -⟩
    exact provided?_eq_some hm hinstrs hbefore his

/-- A method that returns an array of one byte. The code jumps over another array, which is empty. -/
def detouringMethod : Method :=
  .ofInstrs 8 "m" "()[B" [.jump 0, .push (.int 0), .newArray byteArray, .leave (some .ref), .label 0, .push (.int 1),
    .newArray byteArray, .leave (some .ref)]

/-- The empty array is taken for the one that is returned. -/
theorem provided?_detour : provided? detouringMethod = some [] ∧ ¬ FillsBytes detouringMethod.realInstrs [] := by
  refine ⟨by decide +kernel, ?_⟩
  rintro ⟨_, _, -, -, hcode, -⟩
  cases hcode

end StaticData

end Untangle
