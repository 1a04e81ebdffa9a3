import Mathlib.Data.List.Dedup
import Std.Data.String.ToNat
import Untangle.Deobfuscator
import Untangle.Proofs.ClassUnit.Removal

/-!
# The files of flow graphs

Each decoded method of a class has its flow graph drawn into a file. The methods of one name are told apart by a
number after the name, but nothing stands between the two, and some characters become an underscore. So methods of
one name never get the same file, and methods of two names may: the second `a` and the first `a1`, say, or `<init>`
and `_init_`. Of the graphs with one file name the last one is left.
-/

namespace Untangle

open List

namespace Graphs

/-! ### Methods of one name -/

/-- The name for a method with so many methods of its name before it. -/
def label (name : String) (number : Nat) : String := if number = 0 then name else name ++ toString number

/-- A number has no character that is replaced in file names. -/
theorem map_safeChar_toDigits (n : Nat) : (Nat.toDigits 10 n).map safeChar = Nat.toDigits 10 n := by
  refine (map_congr_left fun c hc => if_neg ?_).trans (map_id' _)
  have hdigit : c.isDigit = true := Nat.isDigit_of_mem_toDigits (by decide) (by decide) hc
  rintro (rfl | rfl | rfl) <;> cases hdigit

theorem label_inj {name : String} {i j : Nat} (h : (label name i).map safeChar = (label name j).map safeChar) :
    i = j := by
  have hlabel : ∀ n, ((label name n).map safeChar).toList =
      name.toList.map safeChar ++ if n = 0 then [] else Nat.toDigits 10 n := by
    intro n
    by_cases hn : n = 0
    · simp [label, hn]
    · simp [label, hn, map_safeChar_toDigits]
  rw [← String.toList_inj, hlabel, hlabel, append_cancel_left_eq] at h
  split at h <;> split at h
  · omega
  · exact absurd h.symm Nat.toDigits_ne_nil
  · exact absurd h Nat.toDigits_ne_nil
  · exact Nat.repr_inj.mp (by rw [Nat.repr_eq_ofList_toDigits, h, Nat.repr_eq_ofList_toDigits])

/-- Names in order, each with how often it came before. -/
def counted (seen : List String) : List String → List (String × Nat)
  | [] => []
  | name :: rest => (name, seen.count name) :: counted (name :: seen) rest

theorem map_fst_numbered (seen : List String) (done ms : List (String × Body)) :
    (numbered seen done ms).map Prod.fst =
      (done.map Prod.fst).reverse ++ (counted seen (ms.map Prod.fst)).map fun l => label l.1 l.2 := by
  induction ms generalizing seen done with
  | nil => simp [numbered, counted]
  | cons m ms ih =>
    rw [numbered, ih]
    simp [counted, label]

theorem length_counted (seen names : List String) : (counted seen names).length = names.length := by
  induction names generalizing seen with
  | nil => rfl
  | cons _ _ ih => exact congrArg (· + 1) (ih _)

theorem mem_counted {seen names : List String} {name : String} {number : Nat} :
    (name, number) ∈ counted seen names ↔
      seen.count name ≤ number ∧ number < seen.count name + names.count name := by
  induction names generalizing seen with
  | nil => simp [counted]
  | cons first _ ih =>
    rw [counted, mem_cons, ih, Prod.mk.injEq]
    by_cases h : name = first
    · subst h
      simp only [count_cons_self, true_and]
      omega
    · simp [h, Ne.symm h]

theorem nodup_counted (seen names : List String) : (counted seen names).Nodup := by
  induction names generalizing seen with
  | nil => exact nodup_nil
  | cons _ _ ih =>
    refine nodup_cons.mpr ⟨fun h => ?_, ih _⟩
    rw [mem_counted, count_cons_self] at h
    omega

/-! ### Files -/

theorem fileName_inj {unit method method' : String} {phase : Phase} :
    fileName unit method phase = fileName unit method' phase ↔ method.map safeChar = method'.map safeChar := by
  simp [fileName, ← String.toList_inj]

/-- A file takes the place of those with its name. -/
theorem map_fst_foldl_put (files more : List (String × String)) :
    (more.foldl put files).map Prod.fst =
      (files.map Prod.fst).filter (· ∉ more.map Prod.fst) ++ (more.map Prod.fst).dedup := by
  induction more generalizing files with
  | nil => simp
  | cons file more ih =>
    have hput : (put files file).map Prod.fst = (files.map Prod.fst).filter (· != file.1) ++ [file.1] := by
      simp [put, filter_map, Function.comp_def]
    rw [foldl_cons, ih, hput, filter_append, filter_filter, map_cons]
    have hfilter : (files.map Prod.fst).filter (fun name => decide (name ∉ more.map Prod.fst) && (name != file.1)) =
        (files.map Prod.fst).filter (· ∉ file.1 :: more.map Prod.fst) :=
      filter_congr fun name _ => by simp [Bool.and_comm]; rfl
    rw [hfilter, append_assoc]
    by_cases h : file.1 ∈ more.map Prod.fst
    · rw [dedup_cons_of_mem h, filter_cons_of_neg (by simpa using h)]
      rfl
    · rw [dedup_cons_of_notMem h, filter_cons_of_pos (by simpa using h)]
      rfl

theorem map_fst_draw (u : ClassUnit) (phase : Phase) : (draw u phase []).map Prod.fst =
    ((counted [] ((named u).map Prod.fst)).map fun l => fileName u.name (label l.1 l.2) phase).dedup := by
  have hnumbered := congrArg (map (fileName u.name · phase)) (map_fst_numbered [] [] (named u))
  rw [draw, map_fst_foldl_put]
  simpa [Function.comp_def] using congrArg dedup hnumbered

/-- When no flow graph is lost, for every class and phase: there is a file for each decoded method exactly if no two
methods of different names get names that agree once their numbers are added and characters are replaced. Methods of
one name do not matter, however many there are. -/
theorem length_draw_iff (u : ClassUnit) (phase : Phase) : (draw u phase []).length = (named u).length ↔
    ∀ a b i j, i < ((named u).map Prod.fst).count a → j < ((named u).map Prod.fst).count b →
      (label a i).map safeChar = (label b j).map safeChar → a = b := by
  have hdrawn := congrArg length (map_fst_draw u phase)
  have hall : (named u).length =
      ((counted [] ((named u).map Prod.fst)).map fun l => fileName u.name (label l.1 l.2) phase).length := by
    rw [length_map, length_counted, length_map]
  rw [length_map] at hdrawn
  rw [hdrawn, hall, (dedup_sublist _).length_eq, dedup_eq_self, nodup_map_iff_inj_on (nodup_counted ..)]
  constructor
  · intro h a b i j hi hj heq
    have hsame := h (a, i) (by simpa [mem_counted] using hi) (b, j) (by simpa [mem_counted] using hj)
    exact congrArg Prod.fst (hsame (fileName_inj.mpr heq))
  · rintro h ⟨a, i⟩ ha ⟨b, j⟩ hb heq
    rw [fileName_inj] at heq
    obtain rfl := h a b i j (by simpa [mem_counted] using ha) (by simpa [mem_counted] using hb) heq
    exact congrArg (Prod.mk a) (label_inj heq)

/-- Two methods `a` and one `a1`. -/
def overloadedClass : ClassUnit :=
  { (default : ClassUnit) with
    name := "A"
    methods := [.ofInstrs 8 "a" "()V" [.leave none], .ofInstrs 8 "a" "(I)V" [.leave none],
      .ofInstrs 8 "a1" "()V" [.leave none]] }

/-- The graph of the second `a` is lost. -/
theorem length_draw_overloaded : (draw overloadedClass .before []).length = 2 ∧ (named overloadedClass).length = 3 := by
  decide +kernel

end Graphs

end Untangle
