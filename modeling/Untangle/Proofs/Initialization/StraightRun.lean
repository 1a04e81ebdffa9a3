import Mathlib.Data.List.TakeWhile
import Untangle.Initialization.ConstructorJunk
import Untangle.Initialization.StaticJunk
import Untangle.Proofs.Simplification.Thinning

/-!
# Taking junk out of straight runs

Whatever is found in a constructor or an initializer is a sequence of instructions that fall through:
the finders spell the sequence out, and the straight run they read it from consists of the next
instructions of the code. So taking it out thins out the code.
-/

namespace Untangle

open List

variable {n : Node} {count : Nat} {is : List Instr} {α : Type} {b : Body} {i : Instr} {name : String} {count' : Nat}

namespace StraightRun

variable {ns : List Node}

/-- The instructions of a run of nodes. -/
def reals (ns : List Node) : List Instr := (ns.filter Node.isReal).map Node.instr

theorem reals_cons_of_real (h : n.isReal = true) : reals (n :: ns) = n.instr :: reals ns := by simp [reals, h]

theorem reals_cons_of_not_real (h : n.isReal = false) : reals (n :: ns) = reals ns := by simp [reals, h]

/-- A straight run consists of the next instructions. -/
theorem instrs_prefix (referenced : Label → Bool) (limit : Nat) (ns : List Node) :
    instrs referenced limit ns <+: reals ns := by
  fun_induction instrs referenced limit ns with
  | case1 => exact nil_prefix
  | case2 => exact nil_prefix
  | case3 => exact nil_prefix
  | case4 limit n rest line hc ih =>
    rw [reals_cons_of_not_real (by simp [Node.isReal, Node.instr_of_content hc, Instruction.isReal])]
    exact ih
  | case5 => exact nil_prefix
  | case6 limit n rest l hc _ ih =>
    rw [reals_cons_of_not_real (by simp [Node.isReal, Node.instr_of_content hc, Instruction.isReal])]
    exact ih
  | case7 limit n rest i hline hlabel hc ih =>
    have hn := Node.instr_of_content hc
    have hr : n.isReal = true := by
      rw [Node.isReal, hn]
      cases i with
      | line k => exact absurd rfl (hline k)
      | label l => exact absurd rfl (hlabel l)
      | _ => rfl
    rw [reals_cons_of_real hr, hn]
    exact prefix_cons_inj i |>.mpr ih

/-- The next instructions fall through. -/
def Falls (count : Nat) (ns : List Node) : Prop := ∀ i ∈ (reals ns).take count, i.fallsThrough = true

theorem Falls.of_not_real (h : Falls count (n :: ns)) (hr : n.isReal = false) : Falls count ns := by
  rwa [Falls, reals_cons_of_not_real hr] at h

theorem Falls.of_real (h : Falls (count + 1) (n :: ns)) (hr : n.isReal = true) :
    n.instr.fallsThrough = true ∧ Falls count ns := by
  rw [Falls, reals_cons_of_real hr] at h
  exact ⟨h _ (mem_cons_self ..), fun i hi => h i (mem_cons_of_mem _ hi)⟩

/-- Instructions that fall through and that the code goes on with. -/
theorem falls_of_prefix (hp : is <+: reals ns) (h : ∀ i ∈ is, i.fallsThrough = true) : Falls is.length ns := by
  obtain ⟨_, hrest⟩ := hp
  rw [Falls, ← hrest, take_left]
  exact h

/-- Of two runs of the same code, what the longer one has beyond the shorter one comes after it. -/
theorem eq_append_of_prefix {all short long tail : List Instr} (hs : short <+: all) (hl : long <+: all)
    (ht : long.drop short.length = tail) (hne : tail ≠ []) : long = short ++ tail := by
  have hlen : short.length ≤ long.length := by
    by_contra hlt
    exact hne (ht ▸ drop_eq_nil_of_le (by omega))
  obtain ⟨_, rfl⟩ := prefix_of_prefix_length_le hs hl hlen
  rw [← ht, drop_left]

/-- What is found falls through. -/
def Finder.Mild {α : Type} (find? : Finder α) : Prop :=
  ∀ ns count note, find? ns = some (count, note) → Falls count ns

/-- Taking out what a mild finder finds trims the code. -/
theorem strip_trims {find? : Finder α} (hfind : Finder.Mild find?) {skip : Nat} (notes : List α) (done : List Node)
    (hskip : Falls skip ns) : Trims (done.reverse ++ ns) (strip find? skip notes done ns).2 := by
  induction ns generalizing skip notes done with
  | nil =>
    rw [append_nil]
    exact .refl _
  | cons n rest ih =>
    have hdrop : n.isReal = true → n.instr.fallsThrough = true →
        Trims (done.reverse ++ n :: rest) (done.reverse ++ rest) := fun hr hf =>
      ((Thinned.refl _).append (.drop (Instruction.label?_of_isReal hr) hf (.refl rest))).trims
    unfold strip
    split
    · rename_i hr
      split
      · rename_i skip
        obtain ⟨hf, hfalls⟩ := hskip.of_real hr
        exact (hdrop hr hf).trans (ih notes done hfalls)
      · split
        · rename_i note hfound
          obtain ⟨hf, hfalls⟩ := (hfind _ _ _ hfound).of_real hr
          exact (hdrop hr hf).trans (ih (note :: notes) done hfalls)
        · rw [append_cons]
          simpa using ih notes (n :: done) (by simp [Falls])
    · rename_i hr
      simpa using ih notes (n :: done) (hskip.of_not_real (Bool.eq_false_iff.mpr hr))

theorem falls_zero (ns : List Node) : Falls 0 ns := by simp [Falls]

end StraightRun

open StraightRun

/-- Taking what a mild finder finds out of a body keeps it well-formed. -/
theorem Body.WellFormed.strip (h : b.WellFormed) {find? : Finder α} (hfind : Finder.Mild find?) :
    (b.strip find?).2.WellFormed := by
  have hs := strip_trims hfind [] [] (falls_zero b.nodes)
  unfold Body.strip
  split
  · exact h
  · rename_i heq
    rw [heq] at hs
    exact h.withNodes hs

/-! ### Constructors -/

namespace ConstructorJunk

theorem fallsThrough_of_isKnownLiteral (h : isKnownLiteral i = true) : i.fallsThrough = true := by
  unfold isKnownLiteral at h
  split at h
  · cases h
  · rfl
  · cases h

/-- An exception that is made and dropped takes two instructions besides its arguments. -/
theorem isMadeAndDropped_eq_true {literals : Nat} (h : isMadeAndDropped name literals is = true) :
    ∃ m isInterface rest, is = .invoke .special m isInterface :: .stack .pop :: rest := by
  unfold isMadeAndDropped at h
  split at h
  · exact ⟨_, _, _, rfl⟩
  · cases h

theorem find?_mild (referenced : Label → Bool) : Finder.Mild (find? referenced) := by
  intro ns _ _ h
  unfold find? at h
  split at h
  case h_2 => cases h
  rename_i name hshort
  simp only at h
  split at h
  case isFalse => cases h
  rename_i hfound
  cases h
  obtain ⟨m, isInterface, rest, hmade⟩ := isMadeAndDropped_eq_true (Bool.and_eq_true_iff.mp hfound).2
  have hs := instrs_prefix referenced 2 ns
  have hl := instrs_prefix referenced longest ns
  rw [hshort] at hs
  -- the run is the new object, the literals, the call that makes it and the pop
  generalize instrs referenced longest ns = long at hl hmade
  generalize hlits : (long.drop 2).takeWhile isKnownLiteral = lits at hmade
  have hargs : long.drop 2 = lits ++ .invoke .special m isInterface :: .stack .pop :: rest := by
    have hp : lits <+: long.drop 2 := hlits ▸ takeWhile_prefix _
    rw [← hmade]
    conv_lhs => rw [← take_append_drop lits.length (long.drop 2), ← prefix_iff_eq_take.mp hp]
  have hlong : long =
      [.typed .new name, .stack .dup] ++ (lits ++ .invoke .special m isInterface :: .stack .pop :: rest) :=
    eq_append_of_prefix hs hl hargs (by simp)
  have hp : .typed .new name :: .stack .dup :: (lits ++ [.invoke .special m isInterface, .stack .pop]) <+:
      reals ns := by
    refine IsPrefix.trans ?_ hl
    rw [hlong]
    exact ⟨rest, by simp⟩
  convert falls_of_prefix hp ?_ using 1
  · simp
  · intro i hi
    simp only [mem_cons, mem_append, not_mem_nil, or_false] at hi
    rcases hi with rfl | rfl | hi | rfl | rfl
    · rfl
    · rfl
    · exact fallsThrough_of_isKnownLiteral (mem_takeWhile_imp (hlits ▸ hi))
    · rfl
    · rfl

/-- Taking the junk out of a constructor keeps it well-formed. -/
theorem clean_wellFormed (h : b.WellFormed) (owners : List String) : (clean owners b).2.WellFormed := by
  unfold clean
  simp only
  split
  · exact h
  · rename_i call rest hdrop
    have hns : b.nodes = (call :: (b.nodes.takeWhile fun n => !delegates owners n).reverse).reverse ++ rest := by
      rw [reverse_cons, reverse_reverse, append_assoc, singleton_append, ← hdrop, takeWhile_append_dropWhile]
    have hs := strip_trims (find?_mild b.referencedSet.contains) []
      (call :: (b.nodes.takeWhile fun n => !delegates owners n).reverse) (falls_zero rest)
    rw [← hns] at hs
    split
    · exact h
    · rename_i heq
      rw [heq] at hs
      exact h.withNodes hs

end ConstructorJunk

/-! ### Static initializers -/

namespace StaticJunk

theorem fallsThrough_of_isCall {kind : InvokeKind} (h : isCall kind owner name i = true) : i.fallsThrough = true := by
  unfold isCall at h
  split at h
  · rfl
  · cases h

/-- A sequence ends in an instruction that fills a field. -/
theorem endsWith?_eq_some (h : endsWith? owner count is = some (count', field)) :
    count' = count ∧ ∃ m rest, is = .field .putStatic m :: rest := by
  unfold endsWith? at h
  simp only [Option.bind_eq_bind, Option.bind_eq_some_iff] at h
  obtain ⟨i, hi, s, hs, rfl, rfl⟩ := h
  obtain ⟨rest, rfl⟩ := head?_eq_some_iff.mp hi
  unfold filled? at hs
  split at hs
  · exact ⟨rfl, _, rest, rfl⟩
  · cases hs

/-- The lines of a picture are put into the array by instructions that fall through. -/
theorem skipLines_eq {rest : List Instr} (h : skipLines count is = (count', rest)) :
    ∃ lines, is = lines ++ rest ∧ count' = count + lines.length ∧ ∀ i ∈ lines, i.fallsThrough = true := by
  fun_induction skipLines count is with
  | case1 count i line _ ih =>
    obtain ⟨lines, rfl, rfl, hfall⟩ := ih h
    refine ⟨.stack .dup :: .push (.int i) :: .push (.text line) :: .plain Opcode.aastore :: lines, rfl, ?_, ?_⟩
    · simp only [length_cons]
      omega
    · intro j hj
      simp only [mem_cons] at hj
      rcases hj with rfl | rfl | rfl | rfl | hj
      · rfl
      · rfl
      · rfl
      · rfl
      · exact hfall j hj
  | case2 =>
    cases h
    exact ⟨[], rfl, rfl, by simp⟩
  | case3 =>
    cases h
    exact ⟨[], rfl, rfl, by simp⟩

variable {owner : String} {run : Nat → List Instr} {all : List Instr} {count : Nat} {field : Signature}

/-- What was found is that many instructions at the start of the code, which fall through. -/
def Found (count : Nat) (all : List Instr) : Prop :=
  ∃ is, is <+: all ∧ is.length = count ∧ ∀ i ∈ is, i.fallsThrough = true

theorem found_of_picture? (hrun : ∀ k, run k <+: all) (h : picture? owner run = some (count, field)) :
    Found count all := by
  unfold picture? at h
  split at h
  case h_2 => cases h
  rename_i size hshort
  simp only [Option.bind_eq_bind, Option.bind_eq_some_iff, Prod.exists] at h
  obtain ⟨_, _, hends, h⟩ := h
  split at h
  case isFalse => cases h
  cases h
  obtain ⟨rfl, m, tail, hrest⟩ := endsWith?_eq_some hends
  obtain ⟨lines, hlines, hcount, hfall⟩ := skipLines_eq (Prod.eta (skipLines 2 ((run longest).drop 2))).symm
  rw [hrest] at hlines
  have hs := hrun 2
  rw [hshort] at hs
  have hlong := eq_append_of_prefix hs (hrun longest) hlines (by simp)
  refine ⟨.push (.int size) :: .typed .newArray "java/lang/String" :: (lines ++ [.field .putStatic m]), ?_, ?_, ?_⟩
  · refine IsPrefix.trans ?_ (hrun longest)
    rw [hlong]
    exact ⟨tail, by simp⟩
  · simp only [length_cons, length_append, length_nil]
    omega
  · intro i hi
    simp only [mem_cons, mem_append, not_mem_nil, or_false] at hi
    rcases hi with rfl | rfl | hi | rfl
    · rfl
    · rfl
    · exact hfall i hi
    · rfl

theorem found_of_bufferedText? (hrun : ∀ k, run k <+: all) (h : bufferedText? owner run = some (count, field)) :
    Found count all := by
  unfold bufferedText? at h
  split at h
  case h_2 => cases h
  rename_i hshort
  split at h
  case isFalse => cases h
  rename_i hcalls
  obtain ⟨rfl, m, _, hstore⟩ := endsWith?_eq_some h
  cases hstore
  refine ⟨run 5, hrun 5, by rw [hshort]; rfl, ?_⟩
  rw [hshort]
  intro i hi
  simp only [mem_cons, not_mem_nil, or_false] at hi
  rcases hi with rfl | rfl | rfl | rfl | rfl
  · rfl
  · exact fallsThrough_of_isCall hcalls.2.2.1
  · exact fallsThrough_of_isCall hcalls.2.2.2.1
  · exact fallsThrough_of_isCall hcalls.2.2.2.2
  · rfl

theorem found_of_seededRandom? (hrun : ∀ k, run k <+: all) (h : seededRandom? owner run = some (count, field)) :
    Found count all := by
  unfold seededRandom? at h
  simp only at h
  split at h
  case h_2 => cases h
  rename_i seed init rest hshort
  split at h
  case isFalse => cases h
  rename_i hinit
  have hp := hrun 7
  rw [hshort] at hp
  -- the generator is made in four instructions; what follows is stored, with or without a call on it
  have hmade : ∀ used tail : List Instr, rest = used ++ tail → (∀ i ∈ used, i.fallsThrough = true) →
      Found (4 + used.length) all := by
    intro used tail hrest hfall
    refine ⟨.typed .new "java/util/Random" :: .stack .dup :: .push (.long seed) :: init :: used, ?_, ?_, ?_⟩
    · refine IsPrefix.trans ?_ hp
      rw [hrest]
      exact ⟨tail, by simp⟩
    · simp only [length_cons]
      omega
    · intro i hi
      simp only [mem_cons] at hi
      rcases hi with rfl | rfl | rfl | rfl | hi
      · rfl
      · rfl
      · rfl
      · exact fallsThrough_of_isCall hinit
      · exact hfall i hi
  split at h
  · rename_i bound next rest'
    split at h
    case isFalse => cases h
    rename_i hnext
    obtain ⟨rfl, m, tail, rfl⟩ := endsWith?_eq_some h
    refine hmade [.push (.int bound), next, .field .putStatic m] tail rfl ?_
    simp only [forall_mem_cons]
    exact ⟨rfl, fallsThrough_of_isCall hnext, rfl, by simp⟩
  · rename_i next rest' _
    split at h
    · rename_i hnext
      obtain ⟨rfl, m, tail, rfl⟩ := endsWith?_eq_some h
      refine hmade [next, .field .putStatic m] tail rfl ?_
      simp only [forall_mem_cons]
      exact ⟨fallsThrough_of_isCall hnext, rfl, by simp⟩
    · obtain ⟨rfl, m, tail, hstore⟩ := endsWith?_eq_some h
      exact hmade [.field .putStatic m] tail hstore (by simp [Instruction.fallsThrough])
  · cases h

theorem find?_mild (owner : String) (read : List Signature) (referenced : Label → Bool) :
    Finder.Mild (find? owner read referenced) := by
  intro ns count _ h
  have hrun : ∀ k, instrs referenced k ns <+: reals ns := fun k => instrs_prefix referenced k ns
  have hfound : Found count (reals ns) := by
    unfold find? at h
    simp only [Option.bind_eq_bind, Option.bind_eq_some_iff] at h
    obtain ⟨_, hfound, h⟩ := h
    split at h
    case isTrue => cases h
    cases h
    rcases Option.or_eq_some_iff.mp hfound with hf | ⟨-, hf⟩
    · exact found_of_picture? hrun hf
    · rcases Option.or_eq_some_iff.mp hf with hf | ⟨-, hf⟩
      · exact found_of_bufferedText? hrun hf
      · exact found_of_seededRandom? hrun hf
  obtain ⟨_, hp, rfl, hfall⟩ := hfound
  exact falls_of_prefix hp hfall

end StaticJunk

end Untangle
