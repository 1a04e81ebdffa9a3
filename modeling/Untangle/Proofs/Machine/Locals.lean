import Untangle.Proofs.Machine.Semantics

/-!
# Moving values between the stack and the locals

What a machine does that keeps its locals in slots, for the instructions that only move values about:
loads, stores, a copy of the top of the stack, and a new object that nothing has been done with yet. A
`long` or a `double` takes two slots, and storing it makes whatever was in the second one unusable.

Every method says how many local slots and how many stack slots it takes. Going beyond either is an
error here, like a value that is missing or of another kind than the instruction moves.
-/

namespace Untangle.Machine

/-! ### Values in slots -/

/-- How the machine holds a value; an address is of no kind. -/
def Item.kind? : Item → Option ValueKind
  | number (.int _) => some .int
  | number (.long _) => some .long
  | number (.float _) => some .float
  | number (.double _) => some .double
  | null | object _ => some .ref
  | address _ => none

theorem Item.slots_of_kind? {x : Item} (h : x.kind? = some kind) : x.slots = kind.slots := by
  fun_cases kind? x <;> cases h <;> rfl

theorem Item.slots_pos (x : Item) : 0 < x.slots := by
  fun_cases slots x <;> decide

/-- The slots that values take together. -/
def height (xs : List Item) : Nat := xs.foldr (fun x n => x.slots + n) 0

@[simp]
theorem height_nil : height [] = 0 := rfl

@[simp]
theorem height_cons (x : Item) (xs : List Item) : height (x :: xs) = x.slots + height xs := rfl

@[simp]
theorem height_append (xs ys : List Item) : height (xs ++ ys) = height xs + height ys := by
  induction xs with
  | nil => simp
  | cons x xs ih => simp [ih, add_assoc]

@[simp]
theorem height_reverse (xs : List Item) : height xs.reverse = height xs := by
  induction xs with
  | nil => rfl
  | cons x xs ih => simp [ih, add_comm]

/-- What every local slot holds; nothing in the second slot of a value that takes two. -/
abbrev Locals := Nat → Option Item

namespace Locals

variable {locals locals' : Locals} {x : Item} {xs : List Item} {slot s : Nat}

/-- The locals after a store. -/
def put (locals : Locals) (slot : Nat) (x : Item) : Locals := fun s =>
  if s = slot then some x else if s < slot + x.slots ∧ slot < s then none else locals s

theorem put_same (locals : Locals) (slot : Nat) (x : Item) : locals.put slot x slot = some x := if_pos rfl

theorem put_second (locals : Locals) (slot : Nat) (h : x.slots = 2) : locals.put slot x (slot + 1) = none := by
  simp [put, h]

theorem put_outside (h : s < slot ∨ slot + x.slots ≤ s) : locals.put slot x s = locals s := by
  have hpos := x.slots_pos
  rw [put, if_neg (by omega), if_neg (by omega)]

/-- The value at a slot is all there. -/
def Has (locals : Locals) (slot : Nat) (x : Item) : Prop :=
  locals slot = some x ∧ (x.slots = 2 → locals (slot + 1) = none)

instance : Decidable (locals.Has slot x) := inferInstanceAs (Decidable (_ ∧ _))

/-- Values one after the other, each in the slots behind those of the one before. -/
def putAll (locals : Locals) (slot : Nat) : List Item → Locals
  | [] => locals
  | x :: xs => (locals.putAll (slot + x.slots) xs).put slot x

/-- They are all there. -/
def HasAll (locals : Locals) (slot : Nat) : List Item → Prop
  | [] => True
  | x :: xs => locals.Has slot x ∧ locals.HasAll (slot + x.slots) xs

/-- Nothing but the slots of the values changes. -/
theorem putAll_outside (h : s < slot ∨ slot + height xs ≤ s) : locals.putAll slot xs s = locals s := by
  induction xs generalizing slot with
  | nil => rfl
  | cons x xs ih =>
    rw [height_cons] at h
    rw [putAll, put_outside (by omega), ih (by omega)]

theorem HasAll.congr (h : locals.HasAll slot xs) (heq : ∀ s, slot ≤ s → locals' s = locals s) :
    locals'.HasAll slot xs := by
  induction xs generalizing slot with
  | nil => trivial
  | cons x xs ih =>
    obtain ⟨⟨hfirst, hsecond⟩, hrest⟩ := h
    refine ⟨⟨?_, fun hwide => ?_⟩, ih hrest fun s hs => heq s (by omega)⟩
    · rw [heq slot (le_refl _), hfirst]
    · rw [heq (slot + 1) (by omega), hsecond hwide]

theorem hasAll_putAll (locals : Locals) (slot : Nat) (xs : List Item) : (locals.putAll slot xs).HasAll slot xs := by
  induction xs generalizing slot with
  | nil => trivial
  | cons x xs ih =>
    refine ⟨⟨put_same .., fun hwide => put_second _ _ hwide⟩, (ih (slot + x.slots)).congr fun s hs => ?_⟩
    exact put_outside (.inr hs)

end Locals

/-! ### The machine -/

/-- The slots that a method says it takes. -/
structure Limits where
  stack : Nat
  locals : Nat
deriving DecidableEq, Repr, Inhabited

/-- The class of every object there is, by its number. -/
abbrev Heap := List String

/-- The frame with a value pushed. -/
def push (limits : Limits) (x : Item) (f : Frame Locals Heap) : Option (Frame Locals Heap) :=
  if height (x :: f.stack) ≤ limits.stack then some { f with stack := x :: f.stack } else none

/-- What an instruction does that only moves values, or makes an object. An address is stored like a
reference, but is not loaded. -/
def move (limits : Limits) : Instr → Frame Locals Heap → Option (Frame Locals Heap)
  | .load kind slot, f =>
    match f.locals slot.toNat with
    | some x =>
      if slot.toNat + kind.slots ≤ limits.locals ∧ x.kind? = some kind ∧ f.locals.Has slot.toNat x then push limits x f
      else none
    | none => none
  | .store kind slot, f =>
    match f.stack with
    | x :: rest =>
      if slot.toNat + kind.slots ≤ limits.locals ∧ x.kind?.getD .ref = kind then
        some { f with stack := rest, locals := f.locals.put slot.toNat x }
      else none
    | [] => none
  | .typed .new owner, f => push limits (.object f.heap.length) { f with heap := f.heap ++ [owner] }
  | .stack .dup, f =>
    match f.stack with
    | x :: _ => if x.slots = 1 then push limits x f else none
    | [] => none
  | _, _ => none

/-- What instructions do one after the other. -/
def moveAll (limits : Limits) (is : List Instr) (f : Frame Locals Heap) : Option (Frame Locals Heap) :=
  is.foldlM (fun f i => move limits i f) f

section Moves

variable {limits : Limits} {is js : List Instr} {f g : Frame Locals Heap} {kind : ValueKind} {slot : UInt16} {x : Item}

@[simp]
theorem moveAll_nil : moveAll limits [] f = some f := rfl

theorem moveAll_cons (i : Instr) (h : move limits i f = some g) : moveAll limits (i :: is) f = moveAll limits is g := by
  simp [moveAll, h]

theorem moveAll_append (h : moveAll limits is f = some g) : moveAll limits (is ++ js) f = moveAll limits js g := by
  rw [moveAll, List.foldlM_append]
  rw [moveAll] at h
  rw [h]
  rfl

theorem push_of_height (h : x.slots + height f.stack ≤ limits.stack) :
    push limits x f = some { f with stack := x :: f.stack } := if_pos h

theorem move_load (hslot : slot.toNat + kind.slots ≤ limits.locals) (hkind : x.kind? = some kind)
    (hhas : f.locals.Has slot.toNat x) (hheight : x.slots + height f.stack ≤ limits.stack) :
    move limits (.load kind slot) f = some { f with stack := x :: f.stack } := by
  simp only [move, hhas.1]
  rw [if_pos ⟨hslot, hkind, hhas⟩, push_of_height hheight]

theorem move_store {stack : List Item} (hslot : slot.toNat + kind.slots ≤ limits.locals) (hkind : x.kind? = some kind)
    (hstack : f.stack = x :: stack) :
    move limits (.store kind slot) f = some { f with stack, locals := f.locals.put slot.toNat x } := by
  simp only [move, hstack]
  rw [if_pos ⟨hslot, by rw [hkind]; rfl⟩]

/-- The two instructions that make an object leave it on the stack twice. -/
theorem moveAll_new_dup (owner : String) (h : height f.stack + 2 ≤ limits.stack) :
    moveAll limits [.typed .new owner, .stack .dup] f =
      some ⟨.object f.heap.length :: .object f.heap.length :: f.stack, f.locals, f.heap ++ [owner]⟩ := by
  have hslots : (Item.object f.heap.length).slots = 1 := rfl
  have hnew : move limits (.typed .new owner) f =
      some ⟨.object f.heap.length :: f.stack, f.locals, f.heap ++ [owner]⟩ := push_of_height (by simp only; omega)
  rw [moveAll_cons _ hnew]
  refine (moveAll_cons _ ?_).trans moveAll_nil
  exact push_of_height (by simp only [height_cons]; omega)

end Moves

end Untangle.Machine
