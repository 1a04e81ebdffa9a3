import Std.Data.String.ToInt
import Untangle.Decryption.Context
import Untangle.Decryption.Routine
import Untangle.Proofs.Descriptor

/-!
# Keys of calls

The key of a call is made of texts put one behind the other. The descriptor of a routine has one opening
parenthesis, at its front, so it can be told from the name before it, whatever that is. An argument is shown
without the bar that separates it from the next, and its kind can be told from the marks in its text. So
calls of routines with the same key go to the same routine with the same arguments.
-/

namespace Untangle

open List

variable {c : Char} {ns : List Nat} {a : Argument} {owner : String} {tables : List (String × Table)} {m : Method}
  {r : Routine}

/-! ### Texts with marks in them -/

section Marks

variable {α : Type} {mark : α}

theorem append_mark_inj {x y u v : List α} (hx : mark ∉ x) (hy : mark ∉ y) (h : x ++ mark :: u = y ++ mark :: v) :
    x = y ∧ u = v := by
  induction x generalizing y with
  | nil =>
    cases y with
    | nil => simpa using h
    | cons b y => simp_all
  | cons a x ih =>
    cases y with
    | nil => exact absurd ((cons.inj h).1 ▸ mem_cons_self) hx
    | cons b y =>
      simp only [mem_cons, not_or] at hx hy
      simp only [cons_append, cons.injEq] at h
      obtain ⟨rfl, rfl⟩ := ih hx.2 hy.2 h.2
      exact ⟨by rw [h.1], rfl⟩

/-- Texts that are not empty and do not hold the mark can be told apart after they are joined by it. -/
theorem intercalate_inj {rest : List α} {xs ys : List (List α)} (hx : ∀ x ∈ xs, x ≠ [] ∧ mark ∉ x)
    (hy : ∀ y ∈ ys, y ≠ [] ∧ mark ∉ y) (h : (mark :: rest).intercalate xs = (mark :: rest).intercalate ys) :
    xs = ys := by
  induction xs generalizing ys with
  | nil =>
    match ys with
    | [] => rfl
    | [y] => simp_all
    | y :: y' :: ys => simp_all [intercalate_cons_cons]
  | cons x xs ih =>
    obtain ⟨⟨-, hmark⟩, hxs⟩ := forall_mem_cons.mp hx
    match xs, ys with
    | [], [] => simp_all
    | x' :: xs, [] => simp_all [intercalate_cons_cons]
    | [], [y] => simp_all
    | x' :: xs, [y] =>
      have hmem : mark ∈ y := by
        rw [intercalate_singleton] at h
        simp [← h]
      exact absurd hmem (hy y (by simp)).2
    | [], y :: y' :: ys =>
      have hmem : mark ∈ x := by
        rw [intercalate_singleton] at h
        simp [h]
      exact absurd hmem hmark
    | x' :: xs, y :: y' :: ys =>
      obtain ⟨⟨-, hmark'⟩, hys⟩ := forall_mem_cons.mp hy
      obtain ⟨rfl, htail⟩ := append_mark_inj hmark hmark' h
      rw [ih hxs hys (append_cancel_left htail)]

theorem mem_intercalate {sep : List α} {xs : List (List α)} {a : α} (h : a ∈ sep.intercalate xs) :
    a ∈ sep ∨ ∃ x ∈ xs, a ∈ x := by
  induction xs with
  | nil => simp at h
  | cons x xs ih =>
    cases xs with
    | nil => exact .inr ⟨x, by simp, by simpa using h⟩
    | cons _ xs =>
      rw [intercalate_cons_cons, mem_append, mem_append] at h
      rcases h with (h | h) | h
      · exact .inr ⟨x, by simp, h⟩
      · exact .inl h
      · rcases ih h with h | ⟨y, hy, h⟩
        · exact .inl h
        · exact .inr ⟨y, mem_cons_of_mem _ hy, h⟩

end Marks

/-! ### Arguments -/

theorem not_mem_repr {n : Nat} (hc : c.isDigit = false) : c ∉ n.repr.toList := by
  intro h
  rw [Nat.toList_repr] at h
  simp [Nat.isDigit_of_mem_toDigits (by decide) (by decide) h] at hc

theorem not_mem_intRepr {a : Int} (hc : c.isDigit = false) (hminus : c ≠ '-') : c ∉ a.repr.toList := by
  rw [Int.repr_eq_if]
  split
  · exact not_mem_repr hc
  · rw [String.toList_append, mem_append, not_or]
    exact ⟨by simpa using hminus, not_mem_repr hc⟩

namespace Argument

theorem toList_listed (ns : List Nat) : (listed ns).toList =
    '[' :: ([',', ' '].intercalate (ns.map fun n => n.repr.toList) ++ [']']) := by
  simp [listed, Function.comp_def]

theorem mem_listed (hc : c.isDigit = false) (h : c ∈ (listed ns).toList) : c ∈ ['[', ',', ' ', ']'] := by
  rw [toList_listed, mem_cons, mem_append] at h
  rcases h with rfl | h | h
  · decide
  · rcases mem_intercalate h with h | ⟨x, hx, h⟩
    · exact (by decide : [',', ' '] ⊆ ['[', ',', ' ', ']']) h
    · obtain ⟨n, -, rfl⟩ := mem_map.mp hx
      exact absurd h (not_mem_repr hc)
  · exact (by decide : [']'] ⊆ ['[', ',', ' ', ']']) h

theorem listed_injective {ms : List Nat} (h : listed ns = listed ms) : ns = ms := by
  have hchars := congrArg String.toList h
  simp only [toList_listed, cons.injEq, true_and] at hchars
  have hclear (ks : List Nat) : ∀ x ∈ ks.map (fun n => n.repr.toList), x ≠ [] ∧ ',' ∉ x := by
    intro x hx
    obtain ⟨n, -, rfl⟩ := mem_map.mp hx
    exact ⟨by simp, not_mem_repr (by decide)⟩
  have hmap := intercalate_inj (hclear ns) (hclear ms) (append_cancel_right hchars)
  exact map_inj_right (fun n m hnm => Nat.repr_inj.mp (String.toList_inj.mp hnm)) |>.mp hmap

/-- The marks by which the kinds can be told apart. -/
def marks : Argument → List Char
  | int _ => []
  | long _ => ['L']
  | text _ => ['[']
  | bytes _ => ['[', 'b']

/-- The characters of an argument's text. -/
theorem toList_shown (a : Argument) : a.shown.toList =
    match a with
    | int v => v.toInt.repr.toList
    | long v => v.toInt.repr.toList ++ ['L']
    | text s => (listed (s.units.map UInt16.toNat)).toList
    | bytes b => 'b' :: (listed (b.map UInt8.toNat)).toList := by
  cases a with
  | int v => rfl
  | long v => exact String.toList_append
  | text s => rfl
  | bytes b => exact String.toList_append

theorem mem_shown (hc : c ∈ ['L', '[', 'b', '|']) : c ∈ a.shown.toList ↔ c ∈ a.marks := by
  have hother : c.isDigit = false ∧ c ≠ '-' ∧ c ∉ [',', ' ', ']'] := by
    simp only [mem_cons, not_mem_nil, or_false] at hc
    rcases hc with rfl | rfl | rfl | rfl <;> decide
  have hrepr (n : Int) : c ∉ n.repr.toList := not_mem_intRepr hother.1 hother.2.1
  have hlisted (ns : List Nat) : c ∈ (listed ns).toList ↔ c = '[' := by
    refine ⟨fun h => ?_, fun h => by simp [toList_listed, h]⟩
    rcases mem_cons.mp (mem_listed hother.1 h) with h | h
    · exact h
    · exact absurd h hother.2.2
  rw [toList_shown]
  cases a with
  | int v => simpa [marks] using hrepr _
  | long v => simp [marks, hrepr]
  | text s => simp [marks, hlisted]
  | bytes b => simp [marks, hlisted, or_comm]

theorem shown_ne_empty (a : Argument) : a.shown ≠ "" := by
  rw [ne_eq, ← String.toList_inj, toList_shown]
  cases a with
  | int v =>
    simp [Int.repr_eq_if]
    split <;> simp
  | long v => simp
  | text s => simp [toList_listed]
  | bytes b => simp

theorem shown_injective {a' : Argument} (h : a.shown = a'.shown) : a = a' := by
  have hmarks (c : Char) (hc : c ∈ ['L', '[', 'b', '|']) : c ∈ a.marks ↔ c ∈ a'.marks := by
    rw [← mem_shown hc, ← mem_shown hc, h]
  have hL := hmarks 'L' (by decide)
  have hopen := hmarks '[' (by decide)
  have hb := hmarks 'b' (by decide)
  have hchars := congrArg String.toList h
  rw [toList_shown, toList_shown] at hchars
  cases a with
  | int v =>
    cases a' with
    | int w => rw [Int32.toInt_inj.mp (Int.repr_inj.mp (String.toList_inj.mp hchars))]
    | long w => simp [marks] at hL
    | text t => simp [marks] at hopen
    | bytes c => simp [marks] at hopen
  | long v =>
    cases a' with
    | long w =>
      have hnumber := append_cancel_right hchars
      rw [Int64.toInt_inj.mp (Int.repr_inj.mp (String.toList_inj.mp hnumber))]
    | _ => simp [marks] at hL
  | text s =>
    cases a' with
    | text t =>
      have hunits := listed_injective h
      rw [map_inj_right fun _ _ => UInt16.toNat_inj.mp] at hunits
      exact congrArg (text ∘ Utf16.mk) hunits
    | bytes c => simp [marks] at hb
    | _ => simp [marks] at hopen
  | bytes b =>
    cases a' with
    | bytes c =>
      have hbytes := listed_injective (String.toList_inj.mp (cons.inj hchars).2)
      rw [map_inj_right fun _ _ => UInt8.toNat_inj.mp] at hbytes
      rw [hbytes]
    | _ => simp [marks] at hb

end Argument

/-! ### Routines -/

/-- No parenthesis opens inside the text, only in front of it. -/
def OpensOnce (descriptor : String) : Prop := ∃ tail, descriptor.toList = '(' :: tail ∧ '(' ∉ tail

theorem FieldType.not_mem_chars {t : FieldType} (h : t.isCipherInput = true) : '(' ∉ t.chars := by
  cases t with
  | array element =>
    obtain rfl : element = byte := by simpa [isCipherInput] using h
    decide
  | object name =>
    obtain rfl : name = "java/lang/String" := by simpa [isCipherInput, isLiteral] using h
    decide
  | _ => decide

/-- A routine has a descriptor that can be read, takes something that literals can be passed for, and returns a
string. -/
theorem Routine.exists_descriptor (h : Routine.of? owner tables m = some r) :
    ∃ d, MethodDescriptor.parse m.descriptor = .ok d ∧ d.params ≠ [] ∧
      d.result = some (.object "java/lang/String") ∧ ∀ t ∈ d.params, t.isCipherInput = true := by
  unfold of? at h
  split at h
  · cases h
  · rw [Option.bind_eq_bind, Option.bind_eq_some_iff] at h
    obtain ⟨d, hparse, h⟩ := h
    split at h
    · next hshape =>
      simp only [Bool.and_eq_true, all_eq_true, MethodDescriptor.returnsString, beq_iff_eq, decide_eq_true_eq] at hshape
      obtain ⟨⟨⟨hresult, hsome⟩, -⟩, hparams⟩ := hshape
      refine ⟨d, ?_, ne_nil_of_length_pos hsome, hresult, hparams⟩
      cases hd : MethodDescriptor.parse m.descriptor with
      | error e =>
        rw [hd] at hparse
        cases hparse
      | ok =>
        rw [hd] at hparse
        cases hparse
        rfl
    · cases h

theorem Routine.opensOnce (h : Routine.of? owner tables m = some r) : OpensOnce m.descriptor := by
  obtain ⟨d, hparse, -, hresult, hparams⟩ := exists_descriptor h
  refine ⟨d.params.flatMap FieldType.chars ++ ')' :: MethodDescriptor.resultChars d.result,
    MethodDescriptor.toList_of_parse hparse, ?_⟩
  rw [hresult, mem_append, not_or]
  refine ⟨?_, by decide⟩
  intro hmem
  obtain ⟨t, ht, hmem⟩ := mem_flatMap.mp hmem
  exact FieldType.not_mem_chars (hparams t ht) hmem

/-- Calls of routines with the same key go to the same routine with the same arguments. -/
theorem CallKey.of_inj {owner' name name' descriptor descriptor' : String} {arguments arguments' : List Argument}
    (hd : OpensOnce descriptor) (hd' : OpensOnce descriptor')
    (h : of owner name descriptor arguments = of owner' name' descriptor' arguments') :
    owner = owner' ∧ name = name' ∧ descriptor = descriptor' ∧ arguments = arguments' := by
  obtain ⟨_, htail, hopens⟩ := hd
  obtain ⟨_, htail', hopens'⟩ := hd'
  simp only [of, mk.injEq] at h
  obtain ⟨howner, hroutine, hfingerprint⟩ := h
  have hreverse := congrArg (fun s => s.toList.reverse) hroutine
  simp only [String.toList_append, htail, htail', reverse_append, reverse_cons, append_assoc,
    singleton_append] at hreverse
  obtain ⟨htails, hnames⟩ := append_mark_inj (by simpa using hopens) (by simpa using hopens') hreverse
  rw [reverse_inj] at htails hnames
  refine ⟨howner, String.toList_inj.mp hnames, String.toList_inj.mp (by rw [htail, htail', htails]), ?_⟩
  have hchars := congrArg String.toList hfingerprint
  simp only [String.toList_intercalate, map_map] at hchars
  have hclear (as : List Argument) : ∀ x ∈ as.map (String.toList ∘ Argument.shown), x ≠ [] ∧ '|' ∉ x := by
    intro x hx
    obtain ⟨a, -, rfl⟩ := mem_map.mp hx
    refine ⟨by simpa using a.shown_ne_empty, ?_⟩
    rw [Function.comp, Argument.mem_shown (by decide)]
    cases a <;> simp [Argument.marks]
  have hmap := intercalate_inj (hclear arguments) (hclear arguments') hchars
  exact (map_inj_right fun _ _ heq => Argument.shown_injective (String.toList_inj.mp heq)).mp hmap

/-- The keys of two calls of routines, of one class or of two, are equal exactly if the classes have the same name,
the routines have the same name and descriptor, and the arguments are the same: whatever the routines are called,
and for any number of arguments of any kind. -/
theorem CallKey.of_eq_of_iff {u u' : ClassUnit} {m m' : Method} {r r' : Routine}
    (hr : Routine.of? u.name (StaticData.tables u) m = some r)
    (hr' : Routine.of? u'.name (StaticData.tables u') m' = some r') (arguments arguments' : List Argument) :
    of u.name m.name m.descriptor arguments = of u'.name m'.name m'.descriptor arguments' ↔
      u.name = u'.name ∧ m.signature = m'.signature ∧ arguments = arguments' := by
  constructor
  · intro h
    obtain ⟨howner, hname, hdescriptor, harguments⟩ := of_inj (Routine.opensOnce hr) (Routine.opensOnce hr') h
    exact ⟨howner, by rw [Method.signature, Method.signature, hname, hdescriptor], harguments⟩
  · rintro ⟨howner, hsignature, harguments⟩
    obtain ⟨hname, hdescriptor⟩ := Signature.mk.inj hsignature
    rw [howner, hname, hdescriptor, harguments]

/-- Asks a decoder. -/
def decodingCode : Body where
  maxStack := 1
  maxLocals := 3
  code := Listing.ofInstrs
    [.invoke .static ⟨"java/util/Base64", "getDecoder", "()Ljava/util/Base64$Decoder;"⟩ false, .leave (some .ref)]

/-- A static method with that code. -/
def decoding (name descriptor : String) : Method :=
  { (default : Method) with access := ⟨8⟩, name, descriptor, body := some decodingCode }

/-- Two routines, of which one has the beginning of the other's descriptor in its name, and arguments that are
shown alike but for a mark. -/
theorem decoding_keys_ne :
    (Routine.of? "A" [] (decoding "d" "([BI)Ljava/lang/String;")).isSome ∧
      (Routine.of? "A" [] (decoding "d([B" "(Ljava/lang/String;J)Ljava/lang/String;")).isSome ∧
      CallKey.of "A" "d" "([BI)Ljava/lang/String;" [.bytes [1, 2], .int 3] ≠
        CallKey.of "A" "d([B" "(Ljava/lang/String;J)Ljava/lang/String;" [.text ⟨[1, 2]⟩, .long 3] := by
  have hroutine : Routine.of? "A" [] (decoding "d" "([BI)Ljava/lang/String;") = some ⟨[.array .byte, .int], []⟩ := by
    decide +kernel
  have hroutine' : Routine.of? "A" [] (decoding "d([B" "(Ljava/lang/String;J)Ljava/lang/String;") =
      some ⟨[.object "java/lang/String", .long], []⟩ := by
    decide +kernel
  refine ⟨by rw [hroutine]; rfl, by rw [hroutine']; rfl, fun h => ?_⟩
  let u : ClassUnit := { (default : ClassUnit) with name := "A" }
  have hsame := (@CallKey.of_eq_of_iff u u _ _ _ _ hroutine hroutine' _ _).mp h
  exact absurd hsame.2.1 (by decide)

end Untangle
